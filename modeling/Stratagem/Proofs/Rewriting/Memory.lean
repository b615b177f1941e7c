import Stratagem.Proofs.Rewriting.Equivalence
import Stratagem.Proofs.Steady.Function

/-!
# The memory of a simplifier

A simplifier remembers the results of complete rewritings. What it remembers never shows: a
rewriting gives the term that a new simplifier of the same configuration gives, if that may take as
many steps as it needs. Both are compared with visits that remember nothing. Such a visit only
depends on the nodes of the store, and once it is done, the same visit in any store that has grown
since gives the same term and builds nothing. So what is remembered is what a visit would find, and
leaving the visit out changes neither the result nor the positions of the terms that are built
afterwards.
-/
namespace Stratagem.Rewriting

open Store (Extends)
open Terms

variable {config : SimplifierConfig} {s after : Store} {t u : TermId} {depth : Option ℕ}

section Visits

/-- Visits one after the other, each from the store that the one before leaves. -/
inductive InTurn (visits : Store → TermId → TermId → Store → Prop) :
    Store → List TermId → List TermId → Store → Prop
  /-- Nothing is visited. -/
  | nil (s : Store) : InTurn visits s [] [] s
  /-- A first visit, and then the others. -/
  | cons {s middle after : Store} {t u : TermId} {terms results : List TermId}
      (first : visits s t u middle) (others : InTurn visits middle terms results after) :
      InTurn visits s (t :: terms) (u :: results) after

/-- What becomes of the outcome of the rules for a term, given visits for what is revisited. -/
def Finishes (visits : Option ℕ → Store → TermId → TermId → Store → Prop) (s : Store) (t u : TermId)
    (after : Store) : Outcome → Prop
  | .failed => u = t ∧ after = s
  | .done r => u = r ∧ after = s
  | .revisit again r => visits (some again) s r u after
  | .revisitAll r => visits none s r u after

/-- A visit that remembers nothing, with a number of levels of further visits. -/
def Visits (config : SimplifierConfig) :
    ℕ → Option ℕ → Store → TermId → TermId → Store → Prop
  | 0, _, _, _, _, _ => False
  | levels + 1, depth, s, t, u, after =>
    if depth = some 0 then u = t ∧ after = s
    else t < s.size ∧ u < after.size ∧ ∃ args first t' second outcome third,
      InTurn (Visits config levels (below depth)) s (s.args t) args first ∧
        (rebuild t args).Yields first t' second ∧ (reduce t').Yields config second outcome third ∧
          Finishes (Visits config levels) third t' u after outcome

variable {levels more : ℕ}

/-- What holds of visits holds of visits one after the other. -/
theorem InTurn.imp {visits others : Store → TermId → TermId → Store → Prop}
    {terms results : List TermId} (known : InTurn visits s terms results after)
    (follows : ∀ s t u after, visits s t u after → others s t u after) :
    InTurn others s terms results after := by
  induction known with
  | nil s => exact .nil s
  | cons first _ rest => exact .cons (follows _ _ _ _ first) rest

/-- What holds of visits holds of what becomes of an outcome. -/
theorem Finishes.imp {visits others : Option ℕ → Store → TermId → TermId → Store → Prop}
    {outcome : Outcome} (known : Finishes visits s t u after outcome)
    (follows : ∀ depth s t u after, visits depth s t u after → others depth s t u after) :
    Finishes others s t u after outcome := by
  cases outcome with
  | failed | done => exact known
  | revisit | revisitAll => exact follows _ _ _ _ _ known

/-- A visit to no depth leaves the term alone. -/
theorem visits_stop (config : SimplifierConfig) (levels : ℕ) (s : Store) (t : TermId) :
    Visits config (levels + 1) (some 0) s t t s := by
  rw [Visits, if_pos rfl]
  exact ⟨rfl, rfl⟩

/-- More levels are no obstacle to a visit. -/
theorem Visits.mono (known : Visits config levels depth s t u after) (enough : levels ≤ more) :
    Visits config more depth s t u after := by
  induction levels generalizing more depth s t u after with
  | zero => exact known.elim
  | succ levels lower =>
    obtain ⟨more, rfl⟩ := Nat.exists_eq_succ_of_ne_zero (Nat.ne_zero_of_lt enough)
    have enough := Nat.le_of_succ_le_succ enough
    rw [Visits] at known ⊢
    split at known
    · next stop => rwa [if_pos stop]
    · next deep =>
      rw [if_neg deep]
      obtain ⟨inside, within, args, first, t', second, outcome, third, visited, rebuilt, reduced,
        finished⟩ := known
      exact ⟨inside, within, args, first, t', second, outcome, third,
        visited.imp fun _ _ _ _ known => lower known enough, rebuilt, reduced,
        finished.imp fun _ _ _ _ _ known => lower known enough⟩

/-- Visits one after the other have a number of levels in common. -/
theorem InTurn.exists_levels {terms results : List TermId}
    (known : InTurn (fun s t u after => ∃ levels, Visits config levels depth s t u after) s terms
      results after) :
    ∃ levels, InTurn (Visits config levels depth) s terms results after := by
  induction known with
  | nil s => exact ⟨0, .nil s⟩
  | cons first _ rest =>
    obtain ⟨levels, first⟩ := first
    obtain ⟨more, rest⟩ := rest
    refine ⟨max levels more, .cons (first.mono (le_max_left ..)) ?_⟩
    exact rest.imp fun _ _ _ _ known => known.mono (le_max_right ..)

/-- Visits of the arguments, the rules for the head and visits of what is revisited make up a visit,
whatever their levels are. -/
theorem Visits.of_parts {args : List TermId} {t' : TermId} {outcome : Outcome}
    {first second third : Store} (deep : depth ≠ some 0) (inside : t < s.size)
    (visited : InTurn (Visits config levels (below depth)) s (s.args t) args first)
    (rebuilt : (rebuild t args).Yields first t' second)
    (reduced : (reduce t').Yields config second outcome third)
    (finished : Finishes (Visits config more) third t' u after outcome) (within : u < after.size) :
    Visits config (max levels more + 1) depth s t u after := by
  rw [Visits, if_neg deep]
  exact ⟨inside, within, args, first, t', second, outcome, third,
    visited.imp fun _ _ _ _ known => known.mono (le_max_left ..), rebuilt, reduced,
    finished.imp fun _ _ _ _ _ known => known.mono (le_max_right ..)⟩

/-- Visits one after the other lose no terms if none of them does. -/
theorem InTurn.grown {visits : Store → TermId → TermId → Store → Prop}
    {terms results : List TermId} (known : InTurn visits s terms results after)
    (each : ∀ s t u after, visits s t u after → s.Extends after) : s.Extends after := by
  induction known with
  | nil s => exact .refl s
  | cons first _ rest => exact (each _ _ _ _ first).trans rest

/-- No terms are lost after the rules if none are lost by the visits. -/
theorem Finishes.grown {visits : Option ℕ → Store → TermId → TermId → Store → Prop}
    {outcome : Outcome} (known : Finishes visits s t u after outcome)
    (each : ∀ depth s t u after, visits depth s t u after → s.Extends after) :
    s.Extends after := by
  cases outcome with
  | failed | done => exact known.2 ▸ .refl s
  | revisit | revisitAll => exact each _ _ _ _ _ known

/-- The result of a visit is in the store. -/
theorem Visits.lt_size (known : Visits config levels depth s t u after) (deep : depth ≠ some 0) :
    u < after.size := by
  cases levels with
  | zero => exact known.elim
  | succ =>
    rw [Visits, if_neg deep] at known
    exact known.2.1

/-- A visited term is in the store. -/
theorem Visits.inside (known : Visits config levels depth s t u after) (deep : depth ≠ some 0) :
    t < s.size := by
  cases levels with
  | zero => exact known.elim
  | succ =>
    rw [Visits, if_neg deep] at known
    exact known.1

/-- A visit loses no terms. -/
theorem Visits.grown (known : Visits config levels depth s t u after) : s.Extends after := by
  induction levels generalizing depth s t u after with
  | zero => exact known.elim
  | succ levels lower =>
    rw [Visits] at known
    split at known
    · exact known.2 ▸ .refl s
    · obtain ⟨_, _, args, first, t', second, outcome, third, visited, rebuilt, reduced, finished⟩ :=
        known
      have visited := visited.grown fun _ _ _ _ => lower
      have finished := finished.grown fun _ _ _ _ _ => lower
      exact visited.trans (rebuilt.grown.trans (reduced.grown.trans finished))

/-- Visits one after the other leave all as it is once they are done. -/
theorem InTurn.settles {visits others : Store → TermId → TermId → Store → Prop} {later : Store}
    {terms results : List TermId} (known : InTurn visits s terms results after)
    (each : ∀ s t u after, visits s t u after →
      s.Extends after ∧ ∀ later, after.Extends later → others later t u later)
    (more : after.Extends later) : InTurn others later terms results later := by
  induction known with
  | nil => exact .nil later
  | cons first others rest =>
    have grown := others.grown fun s t u after known => (each s t u after known).1
    exact .cons ((each _ _ _ _ first).2 later (grown.trans more)) (rest more)

/-- A visit leaves all as it is once it is done. -/
theorem Visits.settles {later : Store} (known : Visits config levels depth s t u after)
    (more : after.Extends later) : Visits config levels depth later t u later := by
  induction levels generalizing depth s t u after later with
  | zero => exact known.elim
  | succ levels lower =>
    have grown := known.grown
    rw [Visits] at known ⊢
    split at known
    · next stop =>
      rw [if_pos stop]
      exact ⟨known.1, rfl⟩
    · next deep =>
      rw [if_neg deep]
      obtain ⟨inside, within, args, first, t', second, outcome, third, visited, rebuilt, reduced,
        finished⟩ := known
      have third_later := (finished.grown fun _ _ _ _ _ => Visits.grown).trans more
      have second_later := reduced.grown.trans third_later
      have first_later := rebuilt.grown.trans second_later
      rw [(grown.trans more).args_eq inside]
      refine ⟨(grown.trans more).lt_size inside, more.lt_size within, args, later, t', later,
        outcome, later, ?_, rebuilt.settles second_later, reduced.settles third_later, ?_⟩
      · exact visited.settles (fun _ _ _ _ known => ⟨known.grown, fun later => lower known⟩)
          first_later
      · cases outcome with
        | failed | done => exact ⟨finished.1, rfl⟩
        | revisit | revisitAll => exact lower finished more

/-- Visits one after the other have one list of results if each has one result. -/
theorem InTurn.unique {visits others : Store → TermId → TermId → Store → Prop} {s' after' : Store}
    {terms results results' : List TermId} (known : InTurn visits s terms results after)
    (other : InTurn others s' terms results' after') (same : s'.nodes = s.nodes)
    (each : ∀ s s' t u u' after after', visits s t u after → others s' t u' after' →
      s'.nodes = s.nodes → u' = u ∧ after'.nodes = after.nodes) :
    results' = results ∧ after'.nodes = after.nodes := by
  induction known generalizing s' results' with
  | nil =>
    cases other
    exact ⟨rfl, same⟩
  | cons first _ rest =>
    cases other with
    | cons first' others' =>
      obtain ⟨rfl, same⟩ := each _ _ _ _ _ _ _ first first' same
      obtain ⟨rfl, same⟩ := rest others' same
      exact ⟨rfl, same⟩

/-- A visit has one result and leaves one list of nodes. -/
theorem Visits.unique {s' after' : Store} {u' : TermId}
    (known : Visits config levels depth s t u after)
    (other : Visits config more depth s' t u' after') (same : s'.nodes = s.nodes) :
    u' = u ∧ after'.nodes = after.nodes := by
  induction levels generalizing more depth s s' t u u' after after' with
  | zero => exact known.elim
  | succ levels lower =>
    obtain _ | more := more
    · exact other.elim
    rw [Visits] at known other
    split at known
    · next stop =>
      rw [if_pos stop] at other
      obtain ⟨rfl, rfl⟩ := known
      obtain ⟨rfl, rfl⟩ := other
      exact ⟨rfl, same⟩
    · next deep =>
      rw [if_neg deep] at other
      obtain ⟨inside, within, args, first, t', second, outcome, third, visited, rebuilt, reduced,
        finished⟩ := known
      obtain ⟨_, _, args', first', t'', second', outcome', third', visited', rebuilt', reduced',
        finished'⟩ := other
      rw [(Extends.of_nodes_eq same).args_eq inside] at visited'
      obtain ⟨rfl, same⟩ := visited.unique visited' same fun _ _ _ _ _ _ _ known other same =>
        lower known other same
      obtain ⟨rfl, same⟩ := rebuilt.leads.unique rebuilt'.leads same
      obtain ⟨rfl, same⟩ := reduced.leads.unique reduced'.leads same
      cases outcome' with
      | failed | done => exact ⟨finished'.1.trans finished.1.symm, finished.2 ▸ finished'.2 ▸ same⟩
      | revisit | revisitAll => exact lower finished finished' same

end Visits

variable {ordered : Prop}

/-- A simplifier has a configuration and remembers what visits find: they have the remembered
results in every store that has grown. If that matters, the store is in order. -/
structure Recalls (config : SimplifierConfig) (ordered : Prop) (r : Simplifier) (s : Store) :
    Prop where
  /-- The configuration. -/
  config_eq : r.config = config
  /-- The order of the store. -/
  order : ordered → s.Orderly
  /-- What is remembered is what visits find. -/
  visits : ∀ t u, r.memo[t]? = some u → ∃ levels, ∀ later, s.Extends later →
    Visits config levels none later t u later

namespace Recalls

variable {r : Simplifier}

/-- What is remembered stays true when the store grows. -/
theorem mono (recalls : Recalls config ordered r s) (grown : s.Extends after)
    (kept : ordered → s.Orderly → after.Orderly) : Recalls config ordered r after where
  config_eq := recalls.config_eq
  order ordered := kept ordered (recalls.order ordered)
  visits t u found := by
    obtain ⟨levels, visits⟩ := recalls.visits t u found
    exact ⟨levels, fun later more => visits later (grown.trans more)⟩

/-- Counts do not matter for what is remembered. -/
theorem of_memo {r' : Simplifier} (recalls : Recalls config ordered r s)
    (same : r'.config = r.config) (memo : r'.memo = r.memo) : Recalls config ordered r' s where
  config_eq := same.trans recalls.config_eq
  order := recalls.order
  visits t u found := recalls.visits t u (memo ▸ found)

/-- Nothing is remembered wrongly where nothing is remembered. -/
theorem of_empty (same : r.config = config) (order : ordered → s.Orderly) (empty : r.memo = ∅) :
    Recalls config ordered r s where
  config_eq := same
  order := order
  visits t u found := by simp [empty] at found

/-- The result of a visit may be remembered. -/
theorem insert {levels : ℕ} (recalls : Recalls config ordered r after)
    (known : Visits config levels none s t u after) :
    Recalls config ordered { r with memo := r.memo.insert t u } after where
  config_eq := recalls.config_eq
  order := recalls.order
  visits t' u' found := by
    rw [Std.HashMap.getElem?_insert] at found
    split at found
    · next same =>
      obtain rfl := eq_of_beq same
      obtain rfl := Option.some.inj found
      exact ⟨levels, fun later more => known.settles more⟩
    · exact recalls.visits t' u' found

end Recalls

section Soundness

variable {r : Simplifier} {context : Context} {limit : ℕ}
  {work : Option ℕ → TermId → Rewriting TermId}

/-- Terms are visited one after the other by a simplifier that keeps what it recalls. -/
theorem mapM_inTurn {work : TermId → Rewriting TermId}
    {visits : Store → TermId → TermId → Store → Prop} {bad : Error → Simplifier → Store → Prop} :
    ∀ (terms : List TermId) {r : Simplifier} {s : Store}, Recalls config ordered r s →
    (∀ t ∈ terms, ∀ r now, s.Extends now → Recalls config ordered r now →
      (work t).Ensures r now (fun u r' after =>
        Recalls config ordered r' after ∧ u < after.size ∧ visits now t u after) bad) →
    (terms.mapM work).Ensures r s (fun results r' after => Recalls config ordered r' after ∧
      (∀ u ∈ results, u < after.size) ∧ InTurn visits s terms results after) bad
  | [], _, s, recalls, _ => Attempt.ensures_pure ⟨recalls, nofun, .nil s⟩
  | t :: rest, r, s, recalls, each => by
    rw [List.mapM_cons]
    apply Attempt.ensures_bind (each t (List.mem_cons_self ..) r s (.refl s) recalls)
    rintro u r' middle grown ⟨recalls, inside, first⟩
    have later : ∀ t ∈ rest, ∀ r now, middle.Extends now → Recalls config ordered r now →
        (work t).Ensures r now (fun u r' after =>
          Recalls config ordered r' after ∧ u < after.size ∧ visits now t u after) bad :=
      fun t member r now more => each t (List.mem_cons_of_mem _ member) r now (grown.trans more)
    apply Attempt.ensures_bind (mapM_inTurn rest recalls later)
    rintro results r'' after more ⟨recalls, known, others⟩
    exact Attempt.ensures_pure ⟨recalls, List.forall_mem_cons.mpr ⟨more.lt_size inside, known⟩,
      .cons first others⟩

/-- Where nothing interrupts, a failure is one of too many steps. -/
def Limited (context : Context) (limit : ℕ) (e : Error) : Prop :=
  context = .unbounded → e = .stepsExceeded limit

/-- A way of visiting terms that keeps what is recalled and finds what visits find, unless there are
too many steps. -/
def Visiting (config : SimplifierConfig) (ordered : Prop) (context : Context) (limit : ℕ)
    (work : Option ℕ → TermId → Rewriting TermId) : Prop :=
  ∀ (depth : Option ℕ) (t : TermId) (r : Simplifier) (s : Store), Recalls config ordered r s →
    (depth = some 0 → t < s.size) → (work depth t).Ensures r s
      (fun u r' after => Recalls config ordered r' after ∧ u < after.size ∧
        ∃ levels, Visits config levels depth s t u after)
      (fun e r' after => Recalls config ordered r' after ∧ (t < s.size → Limited context limit e))

/-- The arguments first, then the rules for the head, and the result again: this is a visit if what
is done for arguments and result is. -/
theorem rewriteWith_visits (visiting : Visiting config ordered context limit work)
    (recalls : Recalls config ordered r s) (inside : t < s.size) (deep : depth ≠ some 0) :
    (rewriteWith work depth t).Ensures r s
      (fun u r' after => Recalls config ordered r' after ∧ u < after.size ∧
        ∃ levels, Visits config levels depth s t u after)
      (fun e r' after => Recalls config ordered r' after ∧
        (t < s.size → Limited context limit e)) := by
  have sized (u : TermId) (after after' : Store) (same : after'.nodes = after.nodes)
      (known : u < after.size) : u < after'.size := by
    show u < after'.nodes.size
    rwa [same]
  refine Attempt.ensures_read_bind ?_
  apply Attempt.ensures_bind (mapM_inTurn _ recalls fun a member r now grown recalls =>
    have there := grown.lt_size ((Store.lt_of_mem_args member).trans inside)
    (visiting (below depth) a r now recalls fun _ => there).imp (fun _ _ _ _ found => found)
      fun _ _ _ _ failed => ⟨failed.1, fun _ => failed.2 there⟩)
  rintro args r first grown ⟨recalls, known, visited⟩
  have rebuilt := (steady_rebuild (grown.lt_size inside) known).ensures sized
  apply Attempt.ensures_build_bind rebuilt
  rintro t' second more ⟨known, rebuilt, kept⟩
  have recalls := recalls.mono more fun _ => kept
  have reduced : (reduce t').Ensures config second _ := (steady_reduce_all known).ensures
    fun _ _ _ same within => within.mono (.of_nodes_eq same)
  rw [← recalls.config_eq] at reduced
  apply ensures_runRule_bind reduced
  rintro outcome tally third more ⟨within, reduced, kept⟩
  rw [recalls.config_eq] at reduced
  have recalls : Recalls config ordered { r with tally } third :=
    (recalls.mono more fun _ => kept).of_memo rfl rfl
  have counted : (countRule outcome).Ensures { r with tally } third
      (fun _ r' after => Recalls config ordered r' third ∧ after = third)
      (fun e r' after => Recalls config ordered r' after ∧
        (t < s.size → Limited context limit e)) := by
    unfold countRule
    split
    · exact Attempt.ensures_pure ⟨recalls, rfl⟩
    · exact ⟨recalls.of_memo rfl rfl, rfl⟩
  apply Attempt.ensures_bind counted
  rintro _ r' third _ ⟨recalls, rfl⟩
  obtain ⟨levels, visited⟩ := visited.exists_levels
  have whole (more : ℕ) {u : TermId} {after : Store} (within : u < after.size)
      (finished : Finishes (Visits config more) third t' u after outcome) :
      ∃ levels, Visits config levels depth s t u after :=
    ⟨_, .of_parts deep inside visited rebuilt reduced finished within⟩
  have again (further : Option ℕ) (w : TermId) (result : outcome.result? = some w)
      (finishes : ∀ {more : ℕ} {u : TermId} {after : Store}, Visits config more further third w u
        after → Finishes (Visits config more) third t' u after outcome) :
      (work further w).Ensures r' third
        (fun u r' after => Recalls config ordered r' after ∧ u < after.size ∧
          ∃ levels, Visits config levels depth s t u after)
        (fun e r' after => Recalls config ordered r' after ∧
          (t < s.size → Limited context limit e)) := by
    refine (visiting further w r' third recalls fun _ => within.wide result).imp
      (fun u r' after _ found => ?_)
      fun _ _ _ _ failed => ⟨failed.1, fun _ => failed.2 (within.wide result)⟩
    obtain ⟨recalls, known, more, found⟩ := found
    exact ⟨recalls, known, whole more known (finishes found)⟩
  cases outcome with
  | failed =>
    have known := more.lt_size known
    exact Attempt.ensures_pure ⟨recalls, known, whole 0 known ⟨rfl, rfl⟩⟩
  | done w =>
    have known : w < third.size := within
    exact Attempt.ensures_pure ⟨recalls, known, whole 0 known ⟨rfl, rfl⟩⟩
  | revisit further w => exact again (some further) w rfl id
  | revisitAll w => exact again none w rfl id

/-- What is remembered of a term is asked for only if it is visited completely. -/
theorem remembered_recalls {bad : Error → Simplifier → Store → Prop} :
    (remembered depth t).Ensures r s (fun found r' after => r' = r ∧ after = s ∧
      ∀ u, found = some u → depth = none ∧ r.memo[t]? = some u) bad := by
  unfold remembered
  split
  · next complete =>
    exact Attempt.ensures_get_bind (Attempt.ensures_pure
      ⟨rfl, rfl, fun u found => ⟨Option.isNone_iff_eq_none.mp complete, found⟩⟩)
  · exact Attempt.ensures_pure ⟨rfl, rfl, nofun⟩

/-- A step keeps what is recalled. -/
theorem step_recalls (recalls : Recalls config ordered r s) :
    (step context limit).Ensures r s (fun _ r' after => Recalls config ordered r' s ∧ after = s)
      (fun e r' after => Recalls config ordered r' after ∧
        (t < s.size → Limited context limit e)) := by
  have recalls : Recalls config ordered { r with steps := r.steps + 1 } s := recalls.of_memo rfl rfl
  unfold step
  refine Attempt.ensures_modify_bind (Attempt.ensures_get_bind ?_)
  split
  · exact Attempt.ensures_throw ⟨recalls, fun _ _ => rfl⟩
  · refine Attempt.ensures_read_bind ?_
    cases checked : context.check s with
    | ok => exact Attempt.ensures_pure ⟨recalls, rfl⟩
    | error =>
      refine Attempt.ensures_throw ⟨recalls, fun _ free => ?_⟩
      subst free
      cases checked

/-- Looking for a term keeps what is recalled. -/
theorem known_recalls (recalls : Recalls config ordered r s) :
    (known t).Ensures r s (fun _ r' after => r' = r ∧ after = s ∧ t < s.size)
      (fun e r' after => Recalls config ordered r' after ∧
        (t < s.size → Limited context limit e)) := by
  unfold known
  refine Attempt.ensures_read_bind ?_
  split
  · next outside =>
    exact Attempt.ensures_throw ⟨recalls, fun inside => absurd inside (Nat.not_lt.mpr outside)⟩
  · next inside => exact Attempt.ensures_pure ⟨rfl, rfl, Nat.lt_of_not_le inside⟩

/-- The result of a visit is remembered if the visit was complete. -/
theorem remember_recalls {levels : ℕ} {bad : Error → Simplifier → Store → Prop}
    (recalls : Recalls config ordered r after) (found : Visits config levels depth s t u after) :
    (remember depth t u).Ensures r after
      (fun _ r' last =>
        Recalls config ordered r' after ∧ r'.steps = r.steps ∧ last = after) bad := by
  unfold remember
  split
  · next complete =>
    obtain rfl := Option.isNone_iff_eq_none.mp complete
    exact ⟨recalls.insert found, rfl, rfl⟩
  · exact Attempt.ensures_pure ⟨recalls, rfl, rfl⟩

/-- Visiting a term keeps what is recalled and finds what a visit finds. -/
theorem visit_visiting (config : SimplifierConfig) (ordered : Prop) (context : Context)
    (limit fuel : ℕ) : Visiting config ordered context limit (visit context limit fuel) := by
  induction fuel with
  | zero => exact fun _ _ _ _ recalls _ => Attempt.ensures_throw ⟨recalls, fun _ _ => rfl⟩
  | succ fuel visiting =>
    intro depth t r s recalls inside
    unfold visit
    split
    · next stop =>
      have found : Visits config 1 depth s t t s := stop ▸ visits_stop config 0 s t
      exact Attempt.ensures_pure ⟨recalls, inside stop, 1, found⟩
    next deep =>
    refine Attempt.ensures_modify_bind ?_
    have recalls : Recalls config ordered { r with visited := r.visited + 1 } s :=
      recalls.of_memo rfl rfl
    apply Attempt.ensures_bind remembered_recalls
    rintro found r s _ ⟨rfl, rfl, answer⟩
    split
    · next u =>
      obtain ⟨rfl, known⟩ := answer u rfl
      obtain ⟨levels, visits⟩ := recalls.visits t u known
      have found := visits s (.refl s)
      exact Attempt.ensures_modify_bind (Attempt.ensures_pure
        ⟨recalls.of_memo rfl rfl, found.lt_size nofun, levels, found⟩)
    apply Attempt.ensures_bind (step_recalls recalls)
    rintro _ r s _ ⟨recalls, rfl⟩
    apply Attempt.ensures_bind (known_recalls recalls)
    rintro _ r s _ ⟨rfl, rfl, inside⟩
    apply Attempt.ensures_bind (rewriteWith_visits visiting recalls inside deep)
    rintro u r after _ ⟨recalls, within, levels, found⟩
    apply Attempt.ensures_bind (remember_recalls recalls found)
    rintro _ r after _ ⟨recalls, _, rfl⟩
    exact Attempt.ensures_pure ⟨recalls, within, levels, found⟩

/-- Simplifying a term keeps what is recalled and finds what a complete visit finds, unless there
are too many steps. -/
theorem simplifyWithin_visits (recalls : Recalls config ordered r s) :
    (simplifyWithin context limit t).Ensures r s
      (fun u r' after => Recalls config ordered r' after ∧ u < after.size ∧
        ∃ levels, Visits config levels none s t u after)
      (fun e r' after => Recalls config ordered r' after ∧
        (t < s.size → Limited context limit e)) :=
  Attempt.ensures_modify_bind
    (visit_visiting config ordered context limit (limit + 1) none t _ s (recalls.of_memo rfl rfl)
      nofun)

end Soundness

/-- A simplifier recalls what visits find, whatever it did before. -/
theorem recalls_of_reachable {r : Simplifier} (reachable : r.Reachable s) :
    Recalls r.config False r s := by
  induction reachable with
  | start config s => exact .of_empty rfl False.elim rfl
  | grow _ grown recalls => exact recalls.mono grown False.elim
  | reset _ recalls => exact .of_empty rfl False.elim rfl
  | @simplify r r' s after context limit t outcome _ run recalls =>
    have ensured : (simplifyWithin context limit t).Ensures r s _ _ := simplifyWithin_visits recalls
    have kept : Recalls r.config False r' after := by
      cases outcome with
      | ok => exact (ensured.of_ok run).1
      | error => exact (ensured.of_error run).1
    rwa [kept.config_eq]

section Completeness

variable {α β : Type} {k more levels : ℕ}

/-- Work that a simplifier with enough levels and steps left does from all nodes of one store, with
a given result and leaving the nodes of another, at the cost of at most a number of steps. -/
def Affords (config : SimplifierConfig) (levels k : ℕ) (work : ℕ → ℕ → Rewriting α) (s : Store)
    (a : α) (after : Store) : Prop :=
  ∀ (limit fuel : ℕ) (r : Simplifier) (now : Store), levels ≤ fuel → r.steps + k ≤ limit →
    Recalls config False r now → now.nodes = s.nodes → (work limit fuel).Ensures r now
      (fun b r' last => b = a ∧ last.nodes = after.nodes ∧ Recalls config False r' last ∧
        r'.steps ≤ r.steps + k)
      fun _ _ _ => False

/-- A result alone costs nothing. -/
theorem affords_pure (a : α) (s : Store) : Affords config levels 0 (fun _ _ => pure a) s a s :=
  fun _ _ _ _ _ _ recalls same => Attempt.ensures_pure ⟨rfl, same, recalls, Nat.le_refl _⟩

/-- The costs of one after the other add up. -/
theorem Affords.bind {work : ℕ → ℕ → Rewriting α} {next : ℕ → ℕ → α → Rewriting β} {a : α} {b : β}
    {middle : Store} (first : Affords config levels k work s a middle)
    (second : Affords config levels more (fun limit fuel => next limit fuel a) middle b after) :
    Affords config levels (k + more) (fun limit fuel => work limit fuel >>= next limit fuel) s b
      after := by
  intro limit fuel r now enough left recalls same
  apply Attempt.ensures_bind (first limit fuel r now enough (by omega) recalls same)
  rintro _ r' last _ ⟨rfl, same, recalls, spent⟩
  refine (second limit fuel r' last enough (by omega) recalls same).imp
    (fun c r'' final _ found => ?_) fun _ _ _ _ none => none
  exact ⟨found.1, found.2.1, found.2.2.1, found.2.2.2.trans (by omega)⟩

/-- Terms that can be visited one by one can be visited one after the other. -/
theorem InTurn.affords {work : ℕ → ℕ → TermId → Rewriting TermId}
    {visits : Store → TermId → TermId → Store → Prop} {terms results : List TermId}
    (known : InTurn visits s terms results after)
    (each : ∀ s t u after, visits s t u after →
      ∃ k, Affords config levels k (fun limit fuel => work limit fuel t) s u after) :
    ∃ k, Affords config levels k (fun limit fuel => terms.mapM (work limit fuel)) s results
      after := by
  induction known with
  | nil s => exact ⟨0, affords_pure [] s⟩
  | cons first _ rest =>
    obtain ⟨k, first⟩ := each _ _ _ _ first
    obtain ⟨more, rest⟩ := rest
    refine ⟨k + (more + 0), ?_⟩
    simp only [List.mapM_cons]
    exact first.bind (rest.bind (affords_pure _ _))

/-- The arguments, the rules for the head and what becomes of their outcome cost what the arguments
and the outcome cost. -/
theorem affords_rewriteWith {work : ℕ → ℕ → Option ℕ → TermId → Rewriting TermId}
    {args : List TermId} {t' : TermId} {outcome : Outcome} {first second third : Store}
    (inside : t < s.size)
    (visited : Affords config levels k (fun limit fuel =>
      (s.args t).mapM (work limit fuel (below depth))) s args first)
    (rebuilt : (rebuild t args).Leads first t' second)
    (reduced : (reduce t').Leads config second outcome third)
    (finished : Affords config levels more (fun limit fuel => match outcome with
      | .failed => pure t'
      | .done r => pure r
      | .revisit again r => work limit fuel (some again) r
      | .revisitAll r => work limit fuel none r) third u after) :
    Affords config levels (k + more) (fun limit fuel => rewriteWith (work limit fuel) depth t) s u
      after := by
  intro limit fuel r now enough left recalls same
  refine Attempt.ensures_read_bind ?_
  rw [(Extends.of_nodes_eq same).args_eq inside]
  apply Attempt.ensures_bind (visited limit fuel r now enough (by omega) recalls same)
  rintro _ r last _ ⟨rfl, same, recalls, spent⟩
  apply Attempt.ensures_build_bind (rebuilt.ensures same)
  rintro _ last grown ⟨rfl, same, _⟩
  have recalls := recalls.mono grown False.elim
  apply ensures_runRule_bind (recalls.config_eq ▸ reduced.ensures same)
  rintro outcome tally last grown ⟨rfl, same, _⟩
  have recalls : Recalls config False { r with tally } last :=
    (recalls.mono grown False.elim).of_memo rfl rfl
  have counted : (countRule outcome).Ensures { r with tally } last
      (fun _ r' final => final = last ∧ Recalls config False r' last ∧ r'.steps = r.steps)
      (fun _ _ _ => False) := by
    unfold countRule
    split
    · exact Attempt.ensures_pure ⟨rfl, recalls, rfl⟩
    · exact ⟨rfl, recalls.of_memo rfl rfl, rfl⟩
  apply Attempt.ensures_bind counted
  rintro _ r' last _ ⟨rfl, recalls, steps⟩
  refine (finished limit fuel r' last enough (by omega) recalls same).imp
    (fun c r'' final _ found => ?_) fun _ _ _ _ none => none
  exact ⟨found.1, found.2.1, found.2.2.1, found.2.2.2.trans (by omega)⟩

/-- Every visit can be afforded. -/
theorem Visits.affords (known : Visits config levels depth s t u after) :
    ∃ k, Affords config levels k (fun limit fuel => visit .unbounded limit fuel depth t) s u
      after := by
  induction levels generalizing depth s t u after with
  | zero => exact known.elim
  | succ levels lower =>
    by_cases stop : depth = some 0
    · subst stop
      rw [Visits, if_pos rfl] at known
      obtain ⟨rfl, rfl⟩ := known
      refine ⟨0, fun limit fuel r now enough _ recalls same => ?_⟩
      obtain ⟨fuel, rfl⟩ := Nat.exists_eq_succ_of_ne_zero (Nat.ne_zero_of_lt enough)
      dsimp only
      rw [visit, if_pos rfl]
      exact Attempt.ensures_pure ⟨rfl, same, recalls, Nat.le_refl _⟩
    have whole := known
    rw [Visits, if_neg stop] at known
    obtain ⟨inside, within, args, first, t', second, outcome, third, visited, rebuilt, reduced,
      finished⟩ := known
    obtain ⟨k, visited⟩ := visited.affords fun _ _ _ _ known => lower known
    have finished : ∃ more, Affords config levels more (fun limit fuel => match outcome with
        | .failed => pure t'
        | .done r => pure r
        | .revisit again r => visit .unbounded limit fuel (some again) r
        | .revisitAll r => visit .unbounded limit fuel none r) third u after := by
      cases outcome with
      | failed | done =>
        obtain ⟨rfl, rfl⟩ := finished
        exact ⟨0, affords_pure _ _⟩
      | revisit | revisitAll => exact lower finished
    obtain ⟨more, finished⟩ := finished
    have rewritten := affords_rewriteWith inside visited rebuilt.leads reduced.leads finished
    refine ⟨1 + (k + more), fun limit fuel r now enough left recalls same => ?_⟩
    obtain ⟨fuel, rfl⟩ := Nat.exists_eq_succ_of_ne_zero (Nat.ne_zero_of_lt enough)
    dsimp only
    rw [visit, if_neg stop]
    refine Attempt.ensures_modify_bind ?_
    have recalls : Recalls config False { r with visited := r.visited + 1 } now :=
      recalls.of_memo rfl rfl
    apply Attempt.ensures_bind remembered_recalls
    rintro found r' now _ ⟨rfl, rfl, answer⟩
    split
    · next u' =>
      obtain ⟨rfl, known⟩ := answer u' rfl
      obtain ⟨levels', visits⟩ := recalls.visits t u' known
      obtain ⟨rfl, same⟩ := whole.unique (visits now (.refl now)) same
      exact Attempt.ensures_modify_bind (Attempt.ensures_pure
        ⟨rfl, same, recalls.of_memo rfl rfl, Nat.le_add_right ..⟩)
    have stepped : (step .unbounded limit).Ensures { r with visited := r.visited + 1 } now
        (fun _ r' last => last = now ∧ Recalls config False r' now ∧ r'.steps = r.steps + 1)
        (fun _ _ _ => False) := by
      unfold step
      refine Attempt.ensures_modify_bind (Attempt.ensures_get_bind ?_)
      rw [if_neg (by dsimp only; omega)]
      exact ⟨rfl, recalls.of_memo rfl rfl, rfl⟩
    apply Attempt.ensures_bind stepped
    rintro _ r' now _ ⟨rfl, recalls, steps⟩
    have found : (Rewriting.known t).Ensures r' now (fun _ r'' last => r'' = r' ∧ last = now)
        (fun _ _ _ => False) := by
      unfold Rewriting.known
      refine Attempt.ensures_read_bind ?_
      rw [if_neg (Nat.not_le_of_lt ((Extends.of_nodes_eq same).lt_size inside))]
      exact Attempt.ensures_pure ⟨rfl, rfl⟩
    apply Attempt.ensures_bind found
    rintro _ r' now _ ⟨rfl, rfl⟩
    apply Attempt.ensures_bind (rewritten limit fuel r' now (Nat.le_of_succ_le_succ enough)
      (by omega) recalls same)
    rintro u r' last _ ⟨rfl, same, recalls, spent⟩
    apply Attempt.ensures_bind (remember_recalls recalls (whole.settles (.of_nodes_eq same)))
    rintro _ r' last _ ⟨recalls, kept, rfl⟩
    exact Attempt.ensures_pure ⟨rfl, same, recalls, by omega⟩

end Completeness

/-- What a simplifier remembers does not show: whatever it did before, also where that failed, a
rewriting that succeeds gives the term that a new simplifier of the same configuration gives in the
same store, if only it may take enough steps. Simplifying with the limit of the configuration, with
other limits and in any circumstances are all of this form. -/
theorem simplify_eq_fresh {r r' : Simplifier} {context : Context} {limit : ℕ}
    (reachable : r.Reachable s)
    (run : ((simplifyWithin context limit t).runFrom r).run s = ((.ok u, r'), after)) :
    ∃ enough, ∀ steps ≥ enough, ∃ r'' after',
      ((simplifyWithin .unbounded steps t).runFrom r.fresh).run s = ((.ok u, r''), after') := by
  have recalls := recalls_of_reachable reachable
  have ensured : (simplifyWithin context limit t).Ensures r s _ _ := simplifyWithin_visits recalls
  obtain ⟨_, _, levels, visits⟩ := ensured.of_ok run
  obtain ⟨k, affords⟩ := visits.affords
  refine ⟨max levels k, fun steps enough => ?_⟩
  have fresh : (simplifyWithin .unbounded steps t).Ensures r.fresh s _ _ :=
    Attempt.ensures_modify_bind (affords steps (steps + 1) { r.fresh with steps := 0 } s
      (((le_max_left ..).trans enough).trans (Nat.le_succ steps))
      ((Nat.zero_add k).symm ▸ (le_max_right ..).trans enough) (.of_empty rfl False.elim rfl) rfl)
  obtain ⟨u', r'', after', ran, rfl, _⟩ := fresh.exists_ok
  exact ⟨r'', after', ran⟩

/-- Simplifying takes the limit of the configuration. -/
theorem run_simplify (r : Simplifier) (s : Store) (t : TermId) :
    ((simplify t).runFrom r).run s =
      ((simplifyWithin .unbounded r.config.maxSteps t).runFrom r).run s := rfl

/-- A term that a new simplifier of some configuration can simplify with a limit can be simplified
again where it leaves off. -/
theorem exists_simplify_again {r : Simplifier} {limit : ℕ} {first : TermId}
    (run : ((simplifyWithin .unbounded limit t).runFrom { config }).run s =
      ((.ok first, r), after)) :
    r.Reachable after ∧ ∃ limit u r' last,
      ((simplifyWithin .unbounded limit t).runFrom r).run after = ((.ok u, r'), last) := by
  have visited : (simplifyWithin .unbounded limit t).Ensures { config } s _ _ :=
    simplifyWithin_visits (recalls_of_reachable (.start config s))
  obtain ⟨recalls, _, levels, visits⟩ := visited.of_ok run
  obtain ⟨k, affords⟩ := (visits.settles (.refl after)).affords
  have again : (simplifyWithin .unbounded (max levels k) t).Ensures r after _ _ :=
    Attempt.ensures_modify_bind (affords _ _ { r with steps := 0 } after
      ((le_max_left ..).trans (Nat.le_succ _)) ((Nat.zero_add k).symm ▸ le_max_right ..)
      (recalls.of_memo rfl rfl) rfl)
  obtain ⟨u, r', last, ran, _⟩ := again.exists_ok
  exact ⟨.simplify (.start config s) run, max levels k, u, r', last, ran⟩

/-- A case distinction between integers simplified for the second time: the result is remembered,
and it is that of a new simplifier. -/
theorem simplify_eq_fresh_case :
    let work := caseOfLiterals (mkInt 1) (mkInt 0)
    let t := (work.run .initial).1
    ∃ first r middle limit u r' after,
      ((simplify t).runFrom {}).run (work.run .initial).2 = ((.ok first, r), middle) ∧
      ((simplifyWithin .unbounded limit t).runFrom r).run middle = ((.ok u, r'), after) ∧
      ∃ enough, ∀ steps ≥ enough, ∃ r'' after',
        ((simplifyWithin .unbounded steps t).runFrom r.fresh).run middle =
          ((.ok u, r''), after') := by
  intro work t
  have nodes : work.Ensures .initial _ :=
    caseOfLiterals_getElem? (intern_getElem? nofun) fun s => intern_getElem? nofun
  obtain ⟨a, b, left, right, whole⟩ := nodes
  change (work.run .initial).2.nodes[t]? = _ at whole
  generalize (work.run .initial).2 = s at left right whole ⊢
  have ensured : (simplify t).Ensures {} s _ _ :=
    simplify_ensures (simplify_ite left right whole (by decide) (by simp) (by decide))
  obtain ⟨first, r, middle, run, _⟩ := ensured.exists_ok
  obtain ⟨reachable, limit, u, r', after, again⟩ :=
    exists_simplify_again (run_simplify {} s t ▸ run)
  exact ⟨first, r, middle, limit, u, r', after, run, again, simplify_eq_fresh reachable again⟩

end Stratagem.Rewriting
