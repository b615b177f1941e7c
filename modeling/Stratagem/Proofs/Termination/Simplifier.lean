import Stratagem.Proofs.Rewriting.Memory
import Stratagem.Proofs.Termination.Head

/-!
# Simplifying ends

Without a limit of steps every visit of a well-sorted formula or polynomial ends, under every
configuration. This is an induction on the rank of the term and then on its weight. The arguments of
a term are lighter or of lesser rank, and so is what the rules have visited again, with two
exceptions. A comparison that is started again has lighter sides or sides that are integers and were
reals. The sum or product that a cast is moved into is heavy because of the casts in it; once these
have been visited it is lighter than the cast.
-/
namespace Stratagem

open Store (Extends)

variable {s now after : Store} {config : SimplifierConfig} {Γ : Signature} {t t' u a b : TermId}
  {op : Op} {args : List TermId} {ns : List ℕ} {depth : Option ℕ} {isInt : Bool}
  {relation : Relation} {δ δ' m n k : ℕ}

namespace Op

/-- What an application weighs depends on the exponent only if it is a power. -/
theorem weigh_congr {first second : Gauge} (arith : first.arith = second.arith)
    (exponent : op = .power → first.exponent = second.exponent) :
    op.weigh config first ns = op.weigh config second ns := by
  cases op <;> simp [weigh, arith, exponent]

/-- What an application adds to the rank depends on the sort of its arguments only. -/
theorem lifts_congr {first second : Gauge} (arith : first.arith = second.arith) :
    op.lifts first = op.lifts second := by
  cases op <;> simp [lifts, arith]

end Op

namespace Store

/-- The weight that is left of a term once the rules for its head are done. -/
def aim (config : SimplifierConfig) (s : Store) (t : TermId) : ℕ :=
  match s.view t with
  | (.toReal, [a]) => s.weight config a ^ 2
  | _ => s.weight config t

/-- The weight that is left of a cast. -/
theorem aim_of_cast (view : s.view t = (.toReal, [a])) :
    s.aim config t = s.weight config a ^ 2 := by
  rw [aim, view]

/-- The weight that is left of a term that is no cast. -/
theorem aim_of_other (other : ¬s.IsCast t) : s.aim config t = s.weight config t := by
  unfold aim
  split
  · next a view => exact absurd ⟨a, view⟩ other
  · rfl

/-- The rules for the head make no term heavier. -/
theorem aim_le_weight (config : SimplifierConfig) (s : Store) (t : TermId) :
    s.aim config t ≤ s.weight config t := by
  by_cases cast : s.IsCast t
  · obtain ⟨a, view⟩ := cast
    rw [aim_of_cast view, weight_of_view config view]
    simp [Op.weigh]
  · exact (aim_of_other cast).le

/-- The weight that is left of a term stays when the store grows. -/
theorem Extends.aim_eq (config : SimplifierConfig) (grown : s.Extends after) (inside : t < s.size) :
    after.aim config t = s.aim config t := by
  unfold Store.aim
  rw [grown.view_eq inside]
  split
  · next a view => rw [grown.weight_eq config (lt_size_of_view inside view a (by simp))]
  · exact grown.weight_eq config inside

/-- Well-sorted applications are compound. -/
theorem isCompound_of_fits {sort : TermSort} (fits : s.Fits Γ sort op args) (some : args ≠ []) :
    op.isCompound = true := by
  cases op <;> first
    | rfl
    | cases args with
      | nil => exact absurd rfl some
      | cons => exact fits.elim

/-- An argument is lighter than the term, unless the head adds to the rank. -/
theorem lt_weight_of_mem (config : SimplifierConfig) (sorted : s.WellSorted Γ t)
    (flat : (s.op t).lifts (s.gauge (s.args t)) = 0) (member : a ∈ s.args t) :
    s.weight config a < s.weight config t := by
  have fits := sorted.fits
  by_cases power : s.op t = .power
  · rw [power] at fits
    match arguments : s.args t with
    | [base, e] =>
      rw [arguments] at fits member
      obtain ⟨_, _, k, positive, exponent⟩ := fits
      have view : s.view t = (.power, [base, e]) := view_eq_iff.mpr ⟨power, arguments⟩
      have weight : s.weight config t = config.powerWeight (s.weight config base) k := by
        rw [weight_of_view config view]
        simp [Op.weigh, gauge, numeral?, exponent, Rational.ofInt]
      rw [weight]
      obtain rfl | rfl : a = base ∨ a = e := by simpa using member
      · exact lt_powerWeight config _ positive
      · have literal : s.weight config a = 1 := by
          rw [weight_eq, exponent]
          rfl
        rw [literal]
        exact two_le_powerWeight config _ k
    | [] | [_] | _ :: _ :: _ :: _ =>
      rw [arguments] at fits
      exact fits.elim
  · rw [weight_eq config s t]
    refine Op.lt_weigh flat power (isCompound_of_fits fits (List.ne_nil_of_mem member)) ?_ _
      (List.mem_map_of_mem member)
    exact List.forall_mem_map.mpr fun a _ => s.one_le_weight config a

/-- Terms with the same head, arguments and sort are one. -/
theorem eq_of_view_eq (first : t < s.size) (second : u < s.size) (view : s.view t = s.view u)
    (sort : s.sortOf t = s.sortOf u) : t = u := by
  refine eq_of_node_eq first second ?_
  obtain ⟨head, arguments⟩ := Prod.mk.inj view
  have node (a : TermId) : s.node a = ⟨(s.node a).op, (s.node a).args, s.sortOf a⟩ := rfl
  rw [node t, node u, head, arguments, sort]

/-- A term replaces another one, and rank and weight are at most two bounds. -/
structure Supplants (s : Store) (config : SimplifierConfig) (Γ : Signature) (δ n : ℕ)
    (u t : TermId) : Prop where
  /-- The term replaces the other one. -/
  replaces : s.Replaces Γ u t
  /-- Rank and weight are bounded. -/
  bounded : s.Bounded config δ u n

/-- A replacement within bounds stays one when the store grows. -/
theorem Supplants.mono (known : s.Supplants config Γ δ n u t) (grown : s.Extends after) :
    after.Supplants config Γ δ n u t :=
  ⟨known.replaces.mono grown, known.bounded.mono grown⟩

/-- The gauge of a term stays when its arguments are replaced. -/
theorem gauge_of_replaced (sorted : s.WellSorted Γ t) (grown : s.Extends now)
    (replaced : List.Forall₂ (now.Replaces Γ) args (s.args t)) :
    (now.gauge args).arith = (s.gauge (s.args t)).arith ∧
      (s.op t = .power → (now.gauge args).exponent = (s.gauge (s.args t)).exponent) := by
  have inside : ∀ a ∈ s.args t, a < s.size := fun a member =>
    (lt_of_mem_args member).trans sorted.inside
  rw [← grown.gauge_eq inside]
  constructor
  · have sort : now.headSort args = now.headSort (s.args t) := by
      generalize s.args t = original at replaced
      cases replaced with
      | nil => rfl
      | cons first _ => exact first.sort_eq
    exact congrArg TermSort.isArith sort
  · intro power
    have fits := sorted.fits
    rw [power] at fits
    match arguments : s.args t, args, replaced with
    | [base, e], [base', e'], .cons _ (.cons second .nil) =>
      rw [arguments] at fits
      obtain ⟨_, _, k, _, exponent⟩ := fits
      have same : e' = e := second.literal k (by
        rw [grown.op_eq (inside e (by simp [arguments])), exponent])
      rw [same]
      rfl
    | [], _, _ | [_], _, _ | _ :: _ :: _ :: _, _, _ =>
      rw [arguments] at fits
      exact fits.elim

/-- A term whose arguments are replaced by terms with bounds. -/
theorem bounded_of_replaced (sorted : s.WellSorted Γ t) (grown : s.Extends now)
    (inside : t' < now.size) (view : now.view t' = (s.op t, args))
    (replaced : List.Forall₂ (now.Replaces Γ) args (s.args t))
    (known : List.Forall₂ (now.Bounded config δ) args ns) :
    now.Bounded config ((s.op t).lifts (s.gauge (s.args t)) + δ) t'
      ((s.op t).weigh config (s.gauge (s.args t)) ns) := by
  obtain ⟨arith, exponent⟩ := gauge_of_replaced sorted grown replaced
  rw [← Op.lifts_congr arith, ← Op.weigh_congr arith exponent]
  exact .of_view inside view known

end Store

namespace Rewriting

open Terms

variable {good good' : TermId → Store → Prop}

/-- A visit ends, and its result and the store satisfy a condition. -/
def Ends (config : SimplifierConfig) (depth : Option ℕ) (s : Store) (t : TermId)
    (good : TermId → Store → Prop) : Prop :=
  ∃ levels u after, Visits config levels depth s t u after ∧ good u after

/-- The rules for the head of a term and the visit of what comes of them end, and the result and the
store satisfy a condition. -/
def HeadEnds (config : SimplifierConfig) (s : Store) (t : TermId)
    (good : TermId → Store → Prop) : Prop :=
  ∃ outcome third levels u after, (reduce t).Yields config s outcome third ∧
    Finishes (Visits config levels) third t u after outcome ∧ good u after

/-- What follows from what holds at the end holds at the end. -/
theorem HeadEnds.imp (ends : HeadEnds config s t good)
    (follows : ∀ u after, s.Extends after → good u after → good' u after) :
    HeadEnds config s t good' := by
  obtain ⟨outcome, third, levels, u, after, reduced, finished, holds⟩ := ends
  have grown := reduced.grown.trans (finished.grown fun _ _ _ _ _ => Visits.grown)
  exact ⟨outcome, third, levels, u, after, reduced, finished, follows u after grown holds⟩

/-- Visits to no depth end. -/
theorem ends_stop (holds : good t s) : Ends config (some 0) s t good :=
  ⟨1, t, s, visits_stop config 0 s t, holds⟩

/-- Visits one after the other end if each of them does. -/
theorem exists_inTurn {related : Store → TermId → TermId → Prop}
    (lasting : ∀ u a before after, before.Extends after → related before u a → related after u a) :
    ∀ (terms : List TermId) {s : Store}, (∀ a ∈ terms, ∀ now, s.Extends now →
      Ends config depth now a fun u after => related after u a) →
    ∃ results after, InTurn (fun s t u after => ∃ levels, Visits config levels depth s t u after) s
      terms results after ∧ List.Forall₂ (related after) results terms
  | [], s, _ => ⟨[], s, .nil s, .nil⟩
  | a :: rest, s, each => by
    obtain ⟨levels, u, middle, visited, known⟩ := each a (List.mem_cons_self ..) s (.refl s)
    obtain ⟨results, after, others, all⟩ := exists_inTurn lasting rest fun b member now grown =>
      each b (List.mem_cons_of_mem a member) now (visited.grown.trans grown)
    have grown : middle.Extends after := others.grown fun _ _ _ _ ⟨_, known⟩ => known.grown
    exact ⟨u :: results, after, .cons ⟨levels, visited⟩ others,
      .cons (lasting _ _ _ _ grown known) all⟩

/-- The rules have an outcome for a term whose arguments have no casts of reals, and its result
replaces the term. -/
theorem exists_outcome (config : SimplifierConfig) {post : Outcome → Store → Prop}
    (sorted : s.WellSorted Γ t) (strict : ∀ a ∈ s.args t, s.WellSorted Γ.strict a)
    (ensured : (reduce t).Ensures config s post) :
    ∃ o after, post o after ∧ (reduce t).Yields config s o after ∧
      after.Replaces Γ.strict (o.result?.getD t) t := by
  have steady : (reduce t).Ensures config s _ := (steady_reduce_all sorted.inside).ensures
    fun _ _ _ same within => within.mono (.of_nodes_eq same)
  obtain ⟨holds, ⟨_, yields, _⟩, replaces⟩ :=
    (ensured.and (steady.and (reduce_replaces sorted strict))) {}
  exact ⟨_, _, holds, yields, replaces⟩

/-- A visit ends if those of the arguments do, and if the rules end for every term with arguments
that are related to these. -/
theorem ends_of_args (related : Store → TermId → TermId → Prop) (sorted : s.WellSorted Γ t)
    (deep : depth ≠ some 0)
    (lasting : ∀ u a before after, before.Extends after → related before u a → related after u a)
    (replaces : ∀ now u a, related now u a → now.Replaces Γ.strict u a)
    (each : ∀ a ∈ s.args t, ∀ now, s.Extends now →
      Ends config (below depth) now a fun u after => related after u a)
    (within : ∀ u after, good u after → u < after.size)
    (head : ∀ now t' args, s.Extends now → now.Replaces Γ t' t →
      (∀ a ∈ now.args t', now.WellSorted Γ.strict a) → now.view t' = (s.op t, args) →
      List.Forall₂ (related now) args (s.args t) → HeadEnds config now t' good) :
    Ends config depth s t good := by
  obtain ⟨args, first, visited, known⟩ := exists_inTurn lasting (s.args t) each
  obtain ⟨levels, visited⟩ := visited.exists_levels
  have grown : s.Extends first := visited.grown fun _ _ _ _ => Visits.grown
  have same := grown.args_eq sorted.inside
  have replaced : List.Forall₂ (first.Replaces Γ.strict) args (first.args t) :=
    same ▸ known.imp (replaces first)
  have inside : ∀ u ∈ args, u < first.size := fun u member => by
    obtain ⟨a, _, known⟩ := exists_of_forall₂ replaced member
    exact known.sorted.inside
  have steady := (steady_rebuild (grown.lt_size sorted.inside) inside).ensures
    fun u after after' same (within : u < after.size) => by
      show u < after'.nodes.size
      rwa [same]
  have matching := replaced.imp fun _ _ (known : first.Replaces Γ.strict _ _) => known.toMatches
  have sorted' := sorted.mono grown
  have rebuilt := steady.and ((rebuild_replaces sorted' replaced).and
    (rebuild_node sorted' matching Γ.strict_within))
  obtain ⟨⟨_, rebuilt, _⟩, ⟨stands, strict⟩, _, node⟩ := rebuilt
  generalize ((rebuild t args).run first).2 = second at rebuilt stands strict node
  generalize ((rebuild t args).run first).1 = t' at rebuilt stands strict node
  have view : second.view t' = (s.op t, args) := by
    rw [Store.view, node, grown.op_eq sorted.inside]
  have more := grown.trans rebuilt.grown
  obtain ⟨outcome, third, levels', u, after, reduced, finished, holds⟩ :=
    head second t' args more stands strict view
      (known.imp fun u a => lasting u a first second rebuilt.grown)
  exact ⟨_, u, after, .of_parts deep sorted.inside visited rebuilt reduced finished
    (within u after holds), holds⟩

section Strict

/-- The rules for the head are done with every term of a rank and a weight, and visits of such terms
end. -/
def SettlesAt (config : SimplifierConfig) (Γ : Signature) (δ n : ℕ) : Prop :=
  ∀ s t, s.WellSorted Γ.strict t → s.Bounded config δ t n →
    (HeadEnds config s t fun u after =>
      after.Supplants config Γ.strict δ (s.aim config t) u t) ∧
    ∀ depth, Ends config depth s t fun u after => after.Supplants config Γ.strict δ n u t

variable {outcome : Outcome} {third : Store}

/-- The rules end with an outcome that falls, since what they have visited again is lighter. -/
theorem headEnds_of_falls (lighter : ∀ m < n, SettlesAt config Γ δ m)
    (itself : s.WellSorted Γ.strict t ∧ s.Bounded config δ t n)
    (yields : (reduce t).Yields config s outcome third)
    (replaces : third.Replaces Γ.strict (outcome.result?.getD t) t)
    (falls : outcome.Falls third config δ n) :
    HeadEnds config s t fun u after => after.Supplants config Γ.strict δ n u t := by
  cases outcome with
  | failed =>
    exact ⟨.failed, third, 0, t, third, yields, ⟨rfl, rfl⟩, replaces,
      itself.2.mono yields.grown⟩
  | done r => exact ⟨.done r, third, 0, r, third, yields, ⟨rfl, rfl⟩, replaces, falls⟩
  | revisit depth r =>
    obtain ⟨m, less, bounded⟩ := falls
    obtain ⟨levels, u, after, visited, stands⟩ :=
      (lighter m less third r replaces.sorted bounded).2 (some depth)
    exact ⟨_, third, levels, u, after, yields, visited,
      stands.replaces.trans (replaces.mono visited.grown), stands.bounded.le less.le⟩
  | revisitAll r => exact falls.elim

/-- The rules end for a term that is neither a comparison nor a cast. -/
theorem headEnds_plain (lighter : ∀ m < s.weight config t, SettlesAt config Γ δ m)
    (sorted : s.WellSorted Γ.strict t) (rank : s.rank t ≤ δ) (comparison : ¬s.IsComparison t)
    (cast : ¬s.IsCast t) : HeadEnds config s t fun u after =>
      after.Supplants config Γ.strict δ (s.weight config t) u t := by
  obtain ⟨outcome, third, falls, yields, replaces⟩ := exists_outcome config sorted
    (fun a member => sorted.of_mem_args member) (reduce_falls sorted rank comparison cast)
  exact headEnds_of_falls lighter ⟨sorted, .self sorted.inside rank⟩ yields replaces falls

/-- A visit ends if the rules do for all terms with the same rank and weight. -/
theorem ends_of_heads (lower : ∀ δ' < δ, ∀ n, SettlesAt config Γ δ' n)
    (lighter : ∀ m < n, SettlesAt config Γ δ m)
    (heads : ∀ s t, s.WellSorted Γ.strict t → s.Bounded config δ t n →
      HeadEnds config s t fun u after => after.Supplants config Γ.strict δ (s.aim config t) u t)
    (sorted : s.WellSorted Γ.strict t) (bounded : s.Bounded config δ t n) (depth : Option ℕ) :
    Ends config depth s t fun u after => after.Supplants config Γ.strict δ n u t := by
  by_cases stop : depth = some 0
  · exact stop ▸ ends_stop ⟨.refl sorted, bounded⟩
  -- The arguments are lighter, or their rank is less.
  obtain ⟨δ', rank, each⟩ : ∃ δ', (s.op t).lifts (s.gauge (s.args t)) + δ' ≤ δ ∧
      ∀ a ∈ s.args t, ∀ now, s.Extends now → ∀ depth, Ends config depth now a fun u after =>
        after.Supplants config Γ.strict δ' (s.weight config a) u a := by
    have arguments : ∀ a ∈ s.args t, ∀ now, s.Extends now → now.WellSorted Γ.strict a :=
      fun a member now grown => (sorted.of_mem_args member).mono grown
    obtain flat | lifts := Nat.eq_zero_or_pos ((s.op t).lifts (s.gauge (s.args t)))
    · refine ⟨δ, by omega, fun a member now grown depth => ?_⟩
      have less := (s.lt_weight_of_mem config sorted flat member).trans_le bounded.weight_le
      exact (lighter _ less now a (arguments a member now grown)
        ((bounded.of_mem_args member).mono grown)).2 depth
    · have rank := bounded.rank_le
      rw [Store.rank_eq] at rank
      refine ⟨δ - (s.op t).lifts (s.gauge (s.args t)), by omega, fun a member now grown depth => ?_⟩
      have below : s.rank a ≤ δ - (s.op t).lifts (s.gauge (s.args t)) :=
        Store.rank_le.mp (by rw [Store.rank_eq]; omega) a member
      exact (lower _ (by omega) _ now a (arguments a member now grown)
        (.mono (.self (sorted.of_mem_args member).inside below) grown)).2 depth
  refine ends_of_args (fun now u a => now.Supplants config Γ.strict δ' (s.weight config a) u a) sorted
    stop (fun _ _ _ _ grown known => known.mono grown) (fun _ _ _ known => known.replaces)
    (fun a member now grown => each a member now grown (below depth))
    (fun u after stands => stands.bounded.inside) fun now t' args grown replaces _ view known => ?_
  have bounds : List.Forall₂ (now.Bounded config δ') args ((s.args t).map (s.weight config)) :=
    List.forall₂_map_right_iff.mpr (known.imp fun _ _ known => known.bounded)
  have built := Store.bounded_of_replaced sorted grown replaces.sorted.inside view
    (known.imp fun _ _ known => known.replaces) bounds
  rw [← Store.weight_eq] at built
  have whole : now.Bounded config δ t' n :=
    ⟨built.inside, built.rank_le.trans rank, built.weight_le.trans bounded.weight_le⟩
  exact (heads now t' replaces.sorted whole).imp fun u after more stands =>
    ⟨stands.replaces.trans (replaces.mono more),
      stands.bounded.le ((now.aim_le_weight config t').trans whole.weight_le)⟩

/-- The rules end for every comparison of numbers of a sort whose sides weigh together at most as
much as a bound. -/
def ComparisonsEnd (config : SimplifierConfig) (Γ : Signature) (relation : Relation) (δ : ℕ)
    (isInt : Bool) (k : ℕ) : Prop :=
  ∀ s t a b, s.WellSorted Γ.strict t → s.view t = (relation.op, [a, b]) →
    s.sortOf a = .number isInt → s.Ranked (δ + 1) t → s.weight config a + s.weight config b ≤ k →
    HeadEnds config s t fun u after => after.Supplants config Γ.strict (δ + 1) relation.weight u t

/-- The sides of a comparison have one sort. -/
theorem sortOf_of_comparison (sorted : s.WellSorted Γ t) (view : s.view t = (relation.op, [a, b])) :
    s.sortOf b = s.sortOf a := by
  obtain ⟨head, arguments⟩ := Store.view_eq_iff.mp view
  have fits := sorted.fits
  rw [head, arguments] at fits
  cases relation with
  | le | ge => exact fits.2.2
  | eq => exact fits.2

/-- The rules end for comparisons if they do for those with lighter sides, and for those of integers
instead of reals. -/
theorem comparisonsEnd_step (lower : ∀ n, SettlesAt config Γ δ n)
    (lighter : ∀ m < relation.weight, SettlesAt config Γ (δ + 1) m)
    (less : ∀ j < k, ComparisonsEnd config Γ relation δ isInt j)
    (ints : isInt = false → ∀ j, ComparisonsEnd config Γ relation δ true j) :
    ComparisonsEnd config Γ relation δ isInt k := by
  intro s t a b sorted view sort ranked weight
  have arith : (s.sortOf a).isArith := sort ▸ TermSort.isArith_number isInt
  obtain ⟨outcome, third, settled, yields, replaces⟩ := exists_outcome config sorted
    (fun a member => sorted.of_mem_args member)
    (reduce_comparison_settles id sorted view sort ranked)
  obtain falls | ⟨r, x, y, rfl, inside, shape, first, second, sides⟩ := settled
  · have bounded : s.Bounded config (δ + 1) t relation.weight :=
      ⟨ranked.1, ranked.2, (Store.weight_of_comparison config view arith).le⟩
    exact headEnds_of_falls lighter ⟨sorted, bounded⟩ yields replaces falls
  -- The new comparison is visited completely, first its sides.
  have replaces : third.Replaces Γ.strict r t := replaces
  obtain ⟨head, arguments⟩ := Store.view_eq_iff.mp shape
  have same := sortOf_of_comparison replaces.sorted shape
  obtain ⟨kind, arith, again⟩ : ∃ kind, third.sortOf x = .number kind ∧
      ComparisonsEnd config Γ relation δ kind (third.weight config x + third.weight config y) := by
    obtain ⟨sort, lighter⟩ | ⟨real, int⟩ := sides
    · exact ⟨isInt, sort.elim id same.symm.trans, less _ (lighter.trans_le weight)⟩
    · exact ⟨true, int, ints real _⟩
  have ends : Ends config none third r fun u after =>
      after.Supplants config Γ.strict (δ + 1) relation.weight u r := by
    refine ends_of_args (fun now u a => now.Supplants config Γ.strict δ (third.weight config a) u a)
      replaces.sorted nofun (fun _ _ _ _ grown known => known.mono grown)
      (fun _ _ _ known => known.replaces) (fun u member now grown => ?_)
      (fun u after stands => stands.bounded.inside) fun now t' args grown replaces _ view known => ?_
    · have ranked : third.Ranked δ u := by
        rw [arguments] at member
        obtain rfl | rfl : u = x ∨ u = y := by simpa using member
        · exact first
        · exact second
      exact (lower _ now u ((replaces.sorted.of_mem_args member).mono grown)
        (.mono (.self ranked.1 ranked.2) grown)).2 none
    · rw [arguments] at known
      rw [head] at view
      match args, known with
      | [x', y'], .cons left (.cons right .nil) =>
        have sort : now.sortOf x' = .number kind := by
          rw [left.replaces.sort_eq, grown.sortOf_eq first.1, arith]
        have built := Store.Bounded.of_view replaces.sorted.inside view
          (.cons left.bounded (.cons right.bounded .nil))
        rw [Store.lifts_relation (sort ▸ TermSort.isArith_number kind), Nat.add_comm] at built
        refine (again now t' x' y' replaces.sorted view sort built.ranked
          (Nat.add_le_add left.bounded.weight_le right.bounded.weight_le)).imp
          fun u after more stands => ?_
        exact ⟨stands.replaces.trans (replaces.mono more), stands.bounded⟩
  obtain ⟨levels, u, after, visited, stands⟩ := ends
  exact ⟨_, third, levels, u, after, yields, visited,
    stands.replaces.trans (replaces.mono visited.grown), stands.bounded⟩

/-- The rules end for every comparison. -/
theorem comparisonsEnd (lower : ∀ n, SettlesAt config Γ δ n)
    (lighter : ∀ m < relation.weight, SettlesAt config Γ (δ + 1) m) (isInt : Bool) (k : ℕ) :
    ComparisonsEnd config Γ relation δ isInt k := by
  have ints : ∀ k, ComparisonsEnd config Γ relation δ true k := by
    intro k
    induction k using Nat.strongRecOn with
    | ind k less => exact comparisonsEnd_step lower lighter less nofun
  cases isInt with
  | true => exact ints k
  | false =>
    induction k using Nat.strongRecOn with
    | ind k less => exact comparisonsEnd_step lower lighter less fun _ => ints

section Squares

/-- Squares of numbers, with a surcharge, are together less than the square of the numbers with
their surcharges. -/
theorem sum_squares_lt (ns : List ℕ) :
    (ns.map fun n => n ^ 2 + 1).sum + 2 < ((ns.map (· + 1)).sum + 2) ^ 2 := by
  have each : (ns.map fun n => n ^ 2 + 1).sum ≤ (ns.map (· + 1)).sum ^ 2 := by
    induction ns with
    | nil => exact le_rfl
    | cons n rest tail =>
      simp only [List.map_cons, List.sum_cons]
      generalize (rest.map (· + 1)).sum = total at tail
      calc n ^ 2 + 1 + (rest.map fun n => n ^ 2 + 1).sum ≤ n ^ 2 + 1 + total ^ 2 :=
            Nat.add_le_add_left tail _
        _ ≤ (n + 1 + total) ^ 2 := by nlinarith [Nat.zero_le (n * total)]
  generalize (ns.map (· + 1)).sum = total at each
  calc (ns.map fun n => n ^ 2 + 1).sum + 2 ≤ total ^ 2 + 2 := Nat.add_le_add_right each 2
    _ < total ^ 2 + 4 * total + 4 := by omega
    _ = (total + 2) ^ 2 := by ring

/-- Twice a product of squares is less than the square of twice the product. -/
theorem prod_squares_lt (positive : ∀ n ∈ ns, 1 ≤ n) :
    2 * (ns.map (· ^ 2)).prod < (2 * ns.prod) ^ 2 := by
  have some := one_le_prod positive
  have squares : (ns.map (· ^ 2)).prod = ns.prod ^ 2 := (map_list_prod (powMonoidHom 2) ns).symm
  rw [squares]
  have some : 1 ≤ ns.prod ^ 2 := Nat.one_le_pow _ _ some
  calc 2 * ns.prod ^ 2 < 4 * ns.prod ^ 2 := by omega
    _ = (2 * ns.prod) ^ 2 := by ring

/-- A sum or product of squares is lighter than the square of the sum or product. -/
theorem weigh_squares_lt {gauge gauge' : Gauge} (either : op = .add ∨ op = .mul)
    (positive : ∀ n ∈ ns, 1 ≤ n) :
    op.weigh config gauge (ns.map (· ^ 2)) < op.weigh config gauge' ns ^ 2 := by
  obtain rfl | rfl := either
  · simpa [Op.weigh, Function.comp_def] using sum_squares_lt ns
  · exact prod_squares_lt positive

end Squares

/-- A visit that looks at the head only ends if the rules do. -/
theorem ends_one (sorted : s.WellSorted Γ.strict t)
    (head : ∀ now, s.Extends now → HeadEnds config now t good)
    (within : ∀ u after, good u after → u < after.size) : Ends config (some 1) s t good := by
  refine ends_of_args (fun now u a => u = a ∧ now.WellSorted Γ.strict a) sorted nofun
    (fun _ _ _ _ grown known => ⟨known.1, known.2.mono grown⟩)
    (fun _ _ _ ⟨same, known⟩ => same ▸ .refl (same ▸ known))
    (fun a member now grown => ends_stop ⟨rfl, (sorted.of_mem_args member).mono grown⟩) within
    fun now t' args grown replaces _ view known => ?_
  have same : args = s.args t :=
    List.forall₂_eq_eq_eq ▸ known.imp fun _ _ (both : _ = _ ∧ _) => both.1
  have view : now.view t' = now.view t := by
    rw [view, same, grown.view_eq sorted.inside]
    rfl
  obtain rfl := Store.eq_of_view_eq replaces.sorted.inside replaces.inside view replaces.sort_eq
  exact head now grown

/-- The rules end for a cast: it stays, becomes a literal, or is moved into a sum or a product, which
is light once the casts in it have been visited. -/
theorem headEnds_cast (lighter : ∀ m < s.weight config t, SettlesAt config Γ δ m)
    (sorted : s.WellSorted Γ.strict t) (rank : s.rank t ≤ δ) (view : s.view t = (.toReal, [a])) :
    HeadEnds config s t fun u after =>
      after.Supplants config Γ.strict δ (s.weight config a ^ 2) u t := by
  have weight : s.weight config t = max (s.weight config a ^ 2) 2 := by
    rw [Store.weight_of_view config view]
    simp [Op.weigh]
  have member : a ∈ s.args t := by simp [(Store.view_eq_iff.mp view).2]
  have inner := sorted.of_mem_args member
  have below : s.Bounded config δ a (s.weight config a) :=
    (Store.Bounded.self sorted.inside rank).of_mem_args member
  obtain ⟨outcome, third, settled, yields, replaces⟩ := exists_outcome config sorted
    (fun a member => sorted.of_mem_args member)
    (reduce_cast_settles (δ := δ) id sorted view)
  obtain ⟨rfl, several⟩ | ⟨r, rfl, bounded⟩ | ⟨either, r, terms, rfl, inside, shape, casts⟩ := settled
  · have bounded : s.Bounded config δ t (s.weight config a ^ 2) := by
      refine ⟨sorted.inside, rank, weight.le.trans (max_le le_rfl ?_)⟩
      exact several.trans (Nat.le_self_pow two_ne_zero _)
    exact ⟨.failed, third, 0, t, third, yields, ⟨rfl, rfl⟩, replaces, bounded.mono yields.grown⟩
  · have positive := Nat.one_le_pow 2 _ (s.one_le_weight config a)
    exact ⟨.done r, third, 0, r, third, yields, ⟨rfl, rfl⟩, replaces, bounded.le positive⟩
  have replaces : third.Replaces Γ.strict r t := replaces
  have flat (gauge : Gauge) : (s.op a).lifts gauge = 0 := by
    obtain head | head := either <;> rw [head] <;> rfl
  -- The casts in the sum or product are lighter.
  have light : List.Forall₂ (fun u c => third.aim config c = s.weight config u ^ 2 ∧
      third.rank c ≤ δ ∧ third.weight config c < s.weight config t) (s.args a) terms := by
    refine ((List.forall₂_and_left _ _).mpr ⟨fun u member => member, casts.flip⟩).imp ?_
    rintro u c ⟨member, inside, view⟩
    have less := s.lt_weight_of_mem config inner (flat _) member
    have known : third.Bounded config δ u (s.weight config u) :=
      (below.of_mem_args member).mono yields.grown
    have same := yields.grown.weight_eq config (inner.of_mem_args member).inside
    have built := Store.Bounded.of_view inside view (.cons known .nil)
    refine ⟨by rw [Store.aim_of_cast view, same], built.rank_le.trans (by simp [Op.lifts]), ?_⟩
    have positive := s.one_le_weight config u
    rw [weight]
    refine built.weight_le.trans_lt (lt_max_of_lt_left (max_lt ?_ ?_))
    · exact Nat.pow_lt_pow_left less two_ne_zero
    · calc 2 < 2 ^ 2 := by decide
        _ ≤ s.weight config a ^ 2 := Nat.pow_le_pow_left (by omega) 2
  have ends : Ends config (some 2) third r fun u after =>
      after.Supplants config Γ.strict δ (s.weight config a ^ 2) u r := by
    obtain ⟨head, arguments⟩ := Store.view_eq_iff.mp shape
    refine ends_of_args
      (fun now u c => now.Supplants config Γ.strict δ (third.aim config c) u c)
      replaces.sorted (by simp) (fun _ _ _ _ grown known => known.mono grown)
      (fun _ _ _ known => known.replaces) (fun c member now grown => ?_)
      (fun u after stands => stands.bounded.inside) fun now t' args grown rebuilt _ view known => ?_
    · have sorted := replaces.sorted.of_mem_args member
      rw [arguments] at member
      obtain ⟨u, _, _, rank, less⟩ := exists_of_forall₂ light.flip member
      refine ends_one (sorted.mono grown) (fun later more => ?_)
        fun u after stands => stands.bounded.inside
      have whole := grown.trans more
      rw [← whole.aim_eq config sorted.inside]
      exact (lighter _ less later c (sorted.mono whole)
        (.mono (.self sorted.inside rank) whole)).1
    · have aims : (third.args r).map (third.aim config) =
          ((s.args a).map (s.weight config)).map (· ^ 2) := by
        rw [arguments, List.map_map, ← List.forall₂_eq_eq_eq]
        exact List.forall₂_map_left_iff.mpr (List.forall₂_map_right_iff.mpr
          (light.flip.imp fun _ _ known => known.1))
      have bounds : List.Forall₂ (now.Bounded config δ) args
          ((third.args r).map (third.aim config)) :=
        List.forall₂_map_right_iff.mpr (known.imp fun _ _ known => known.bounded)
      have built := Store.bounded_of_replaced replaces.sorted grown rebuilt.sorted.inside view
        (known.imp fun _ _ known => known.replaces) bounds
      rw [head, aims, flat, Nat.zero_add] at built
      have less : (s.op a).weigh config (third.gauge (third.args r))
          (((s.args a).map (s.weight config)).map (· ^ 2)) < s.weight config a ^ 2 := by
        rw [s.weight_eq config a]
        exact weigh_squares_lt either (List.forall_mem_map.mpr fun u _ => s.one_le_weight config u)
      refine (lighter _ (less.trans_le (weight ▸ le_max_left ..)) now t' rebuilt.sorted built).1.imp
        fun u after more stands => ⟨stands.replaces.trans (rebuilt.mono more), ?_⟩
      exact stands.bounded.le (((now.aim_le_weight config t').trans built.weight_le).trans less.le)
  obtain ⟨levels, u, after, visited, stands⟩ := ends
  exact ⟨_, third, levels, u, after, yields, visited,
    stands.replaces.trans (replaces.mono visited.grown), stands.bounded⟩

/-- The rules and visits end for all terms without casts of reals, by induction on the rank and then
on the weight. -/
theorem settlesAt (config : SimplifierConfig) (Γ : Signature) (δ n : ℕ) :
    SettlesAt config Γ δ n := by
  induction δ using Nat.strongRecOn generalizing n with
  | ind δ lower =>
    induction n using Nat.strongRecOn with
    | ind n lighter =>
      have heads : ∀ s t, s.WellSorted Γ.strict t → s.Bounded config δ t n →
          HeadEnds config s t fun u after =>
            after.Supplants config Γ.strict δ (s.aim config t) u t := by
        intro s t sorted bounded
        have lighter : ∀ m < s.weight config t, SettlesAt config Γ δ m :=
          fun m less => lighter m (less.trans_le bounded.weight_le)
        by_cases cast : s.IsCast t
        · obtain ⟨a, view⟩ := cast
          rw [Store.aim_of_cast view]
          exact headEnds_cast lighter sorted bounded.rank_le view
        rw [Store.aim_of_other cast]
        by_cases comparison : s.IsComparison t
        · obtain ⟨relation, a, b, view, arith⟩ := comparison
          obtain ⟨isInt, sort⟩ := TermSort.exists_eq_number arith
          obtain ⟨δ, rfl, _⟩ := bounded.ranked.lower view (Store.lifts_relation arith)
          have weight := Store.weight_of_comparison config view arith
          rw [weight] at lighter ⊢
          exact comparisonsEnd (lower δ (Nat.lt_succ_self δ)) lighter isInt _ s t a b sorted view
            sort bounded.ranked le_rfl
        · exact headEnds_plain lighter sorted bounded.rank_le comparison cast
      exact fun s t sorted bounded => ⟨heads s t sorted bounded,
        ends_of_heads lower lighter heads sorted bounded⟩

end Strict

/-- Complete visits end. Casts of reals are left out once their arguments have been visited, so that
the rules meet only terms without such casts below their heads. -/
theorem ends_complete (config : SimplifierConfig) (sorted : s.WellSorted Γ t) :
    Ends config none s t fun u after => after.Replaces Γ.strict u t := by
  induction t using Nat.strongRecOn generalizing s with
  | ind t smaller =>
    refine ends_of_args (fun now u a => now.Replaces Γ.strict u a) sorted nofun
      (fun _ _ _ _ grown known => known.mono grown) (fun _ _ _ known => known)
      (fun a member now grown => smaller a (Store.lt_of_mem_args member)
        ((sorted.of_mem_args member).mono grown))
      (fun u after known => known.sorted.inside) fun now t' args _ replaces arguments _ _ => ?_
    obtain strict | ⟨a, view, inner, real⟩ := strict_or_realCast replaces.sorted arguments
    · have itself : now.Bounded config (now.rank t') t' (now.weight config t') :=
        .self strict.inside le_rfl
      exact (settlesAt config Γ _ _ now t' strict itself).1.imp fun u after more stands =>
        stands.replaces.trans (replaces.mono more)
    · have nowhere : Assignment := ⟨fun _ => True, fun _ => 0, fun _ => 0⟩
      obtain ⟨_, third, ⟨r, rfl, _⟩, yields, found⟩ := exists_outcome config replaces.sorted arguments
        (reduce_realCast view (.self inner real nowhere))
      have found : third.Replaces Γ.strict r t' := found
      exact ⟨.done r, third, 0, r, third, yields, ⟨rfl, rfl⟩,
        found.trans (replaces.mono yields.grown)⟩

/-- Simplifying ends without a limit of steps: for every well-sorted formula or polynomial, under
every configuration, whatever the store holds and whatever the simplifier did before, there is a
number of steps that is never exceeded. With a limit of at least that number, simplifying gives one
and the same term. -/
theorem simplify_terminates {r : Simplifier} (reachable : r.Reachable s)
    (sorted : s.WellSorted Γ t) :
    ∃ u enough, ∀ limit ≥ enough, ∃ r' after,
      ((simplifyWithin .unbounded limit t).runFrom r).run s = ((.ok u, r'), after) ∧
        r'.steps ≤ enough := by
  obtain ⟨levels, u, after, visited, _⟩ := ends_complete r.config sorted
  obtain ⟨k, affords⟩ := visited.affords
  refine ⟨u, max levels k, fun limit enough => ?_⟩
  have recalls : Recalls r.config False { r with steps := 0 } s :=
    (recalls_of_reachable reachable).of_memo rfl rfl
  have ensured : (simplifyWithin .unbounded limit t).Ensures r s _ _ :=
    Attempt.ensures_modify_bind (affords limit (limit + 1) { r with steps := 0 } s
      (((le_max_left ..).trans enough).trans (Nat.le_succ limit))
      ((Nat.zero_add k).symm ▸ (le_max_right ..).trans enough) recalls rfl)
  obtain ⟨u', r', last, ran, rfl, _, _, spent⟩ := ensured.exists_ok
  exact ⟨r', last, ran, spent.trans ((Nat.zero_add k).le.trans (le_max_right ..))⟩

/-- A bound on the square of an integer, simplified with powers multiplied out. -/
theorem simplify_terminates_square :
    let work : Terms TermId := do
      let x ← mkVar "x" .int
      mkApp .le [← mkApp .power [x, ← mkInt 2], ← mkInt 1]
    ∃ u enough, ∀ limit ≥ enough, ∃ r' after,
      ((simplifyWithin .unbounded limit (work.run .initial).1).runFrom
        { config := { expandPower := true } }).run (work.run .initial).2 = ((.ok u, r'), after) ∧
        r'.steps ≤ enough := by
  intro work
  have built : work.Ensures .initial fun t after => after.WellSorted .full t := by
    have nowhere : Assignment := ⟨fun _ => True, fun _ => 0, fun _ => 0⟩
    have constant : (mkVar "x" .int).Ensures .initial fun t after =>
        after.Number .full nowhere true t (after.num nowhere t) := by
      refine ensures_bind_of_all fun _ s _ => ?_
      refine (intern_node (by simp)).imp fun t after _ found => ?_
      obtain ⟨inside, node⟩ := found
      refine .self (.intro inside ?_ ?_) (by rw [Store.sortOf, node]; rfl) nowhere
      · rw [Store.op, Store.args, Store.sortOf, node]
        exact ⟨trivial, .inr rfl⟩
      · rw [Store.args, node]
        exact List.forall_mem_nil _
    refine ensures_bind constant fun x first _ number => ?_
    refine ensures_bind (mkInt_literal (Γ := .full) 2) fun two second grown literal => ?_
    refine ensures_bind (mkPower_number (k := 2) (number.mono grown) two_pos literal.1 literal.2)
      fun square third _ number => ?_
    refine ensures_bind (mkInt_number (Γ := .full) (I := nowhere) 1) fun one last grown number' => ?_
    exact (mkLe_formula (number.mono grown) number').imp fun _ _ _ formula => formula.sorted
  exact simplify_terminates (.start _ _) built

end Rewriting

end Stratagem
