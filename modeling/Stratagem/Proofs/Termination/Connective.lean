import Stratagem.Proofs.Rewriting.Connective
import Stratagem.Proofs.Termination.Measure

/-!
# Rules for connectives make formulas lighter

Members that are gathered from nested conjunctions or disjunctions weigh no more than these, and
every formula that is written by other connectives is heavier than what it is written as.
-/
namespace Stratagem.Connective

open Terms Rule

variable {s : Store} {config : SimplifierConfig} {t a b c : TermId} {args : List TermId}
  {Γ : Signature} {isAnd : Bool} {δ n k : ℕ}

/-- Negation. -/
theorem reduceNot_falls (known : s.Bounded config δ a n) :
    (reduceNot a).Ensures config s fun o after => o.Falls after config δ (n + 2) := by
  refine ensures_peek ?_
  split
  · next p _ _ => exact (bounded_ofBool s _).le (by omega)
  · next b view =>
    have member : b ∈ s.args a := by rw [(Store.view_eq_iff.mp view).2]; simp
    have weight := Store.weight_of_view config view
    refine (known.of_mem_args member).le ?_
    have less := known.weight_le
    simp [weight, Op.weigh] at less
    omega
  · trivial

section Gathering

variable {head : Op} {unit : TermId} {flat : Bool}

/-- The weight of gathered members, with a surcharge for each. -/
def load (config : SimplifierConfig) (s : Store) (k : ℕ) (members : List TermId) : ℕ :=
  (members.map fun m => s.weight config m + k).sum

/-- Gathering adds no more than the weight of the term and the surcharge, if the members of a term
of the same head weigh no more together. -/
theorem load_gather (nested : ∀ a, s.op a = head → load config s k (s.args a) ≤
      s.weight config a + k) : ∀ (depth : ℕ) (walk : Walk) (a : TermId),
    load config s k (gather s head unit flat depth walk a).out.toList ≤
      load config s k walk.out.toList + (s.weight config a + k)
  | 0, _, _ => Nat.le_add_right ..
  | depth + 1, walk, a => by
    unfold gather
    split
    · exact Nat.le_add_right ..
    dsimp only
    split
    · next same =>
      have below := nested a (by simp_all)
      have all : ∀ (terms : List TermId) (walk : Walk),
          load config s k (terms.foldl (gather s head unit flat depth) walk).out.toList ≤
            load config s k walk.out.toList + load config s k terms := by
        intro terms
        induction terms with
        | nil => exact fun walk => Nat.le_add_right ..
        | cons first rest tail =>
          intro walk
          have here := load_gather nested depth walk first
          have later := tail (gather s head unit flat depth walk first)
          simp only [load, List.map_cons, List.sum_cons, List.foldl_cons] at here later ⊢
          omega
      exact (all _ _).trans (Nat.add_le_add_left below _)
    · simp [load]

/-- The surcharge for a member of a conjunction or a disjunction. -/
def surcharge (isAnd : Bool) : ℕ := if isAnd then 3 else 1

/-- The weight of a conjunction or a disjunction is that of its members and more. -/
theorem weight_of_junction (config : SimplifierConfig) (head : s.op a = junctionHead isAnd) :
    s.weight config a =
      load config s (surcharge isAnd) (s.args a) + if isAnd then 5 else 2 := by
  rw [Store.weight_eq, head]
  cases isAnd <;> simp [junctionHead, Op.weigh, load, surcharge, Function.comp_def]

/-- The members that are gathered from terms weigh no more than these. -/
theorem load_members (isAnd flat : Bool) (args : List TermId) :
    load config s (surcharge isAnd) (members s isAnd flat args) ≤
      load config s (surcharge isAnd) args := by
  have nested : ∀ a, s.op a = junctionHead isAnd →
      load config s (surcharge isAnd) (s.args a) ≤ s.weight config a + surcharge isAnd := by
    intro a head
    rw [weight_of_junction config head]
    omega
  have all : ∀ (terms : List TermId) (walk : Walk),
      load config s (surcharge isAnd) (terms.foldl (gather s (junctionHead isAnd) (ofBool isAnd)
        flat s.size) walk).out.toList ≤
        load config s (surcharge isAnd) walk.out.toList + load config s (surcharge isAnd) terms := by
    intro terms
    induction terms with
    | nil => exact fun walk => Nat.le_add_right ..
    | cons first rest tail =>
      intro walk
      have here : load config s _ (gather s _ (ofBool isAnd) flat s.size walk first).out.toList ≤ _ :=
        load_gather nested s.size walk first
      have later := tail (gather s (junctionHead isAnd) (ofBool isAnd) flat s.size walk first)
      simp only [load, List.map_cons, List.sum_cons, List.foldl_cons] at here later ⊢
      omega
  exact (all args {}).trans (Nat.zero_add _).le

/-- The gathered members are there and of no greater rank. -/
theorem bounded_members (isAnd flat : Bool)
    (known : ∀ a ∈ args, s.Bounded config δ a (s.weight config a)) :
    ∀ m ∈ members s isAnd flat args, s.Bounded config δ m (s.weight config m) := by
  intro m member
  have all := List.foldlRecOn (motive := fun walk : Walk => ∀ m ∈ walk.out,
      s.Bounded config δ m (s.weight config m)) args
    (gather s (junctionHead isAnd) (ofBool isAnd) flat s.size) (b := {}) (by simp)
    fun walk before a member => gather_members
      (P := fun a => s.Bounded config δ a (s.weight config a))
      (fun a _ known b => known.of_mem_args) s.size walk a (known a member) before
  exact all m (by simpa [members] using member)

/-- Conjunction and disjunction. -/
theorem reduceJunction_falls (known : ∀ a ∈ args, s.Bounded config δ a (s.weight config a)) :
    (reduceJunction isAnd args).Ensures config s fun o after => o.Falls after config δ
      (load config s (surcharge isAnd) args + if isAnd then 5 else 2) := by
  have bounded := bounded_members isAnd config.flat known
  have light : load config s _ _ ≤ _ := load_members isAnd config.flat args
  have absorbed : s.Bounded config δ (ofBool !isAnd)
      (load config s (surcharge isAnd) args + if isAnd then 5 else 2) :=
    (bounded_ofBool s _).le (by split <;> omega)
  unfold reduceJunction
  refine ensures_read_bind (ensures_peek_bind ?_)
  have same : (args.foldl (gather s (if isAnd then .and else .or) (ofBool isAnd) config.flat
    s.size) {}).out.toList = members s isAnd config.flat args := rfl
  rw [same]
  generalize members s isAnd config.flat args = members at bounded light
  split
  · exact ensures_pure absorbed
  refine ensures_peek_bind ?_
  split
  · exact ensures_pure absorbed
  split
  · exact ensures_pure trivial
  have each : List.Forall₂ (s.Bounded config δ) members (members.map (s.weight config)) :=
    Store.Bounded.self_all config fun m member => (bounded m member).ranked
  cases isAnd with
  | true =>
    refine ensures_done ((mkAnd_bounded each).imp fun r _ _ built => built.le ?_)
    simpa [load, surcharge, Function.comp_def] using light
  | false =>
    refine ensures_done ((mkOr_bounded each).imp fun r _ _ built => built.le ?_)
    simpa [load, surcharge, Function.comp_def] using light

/-- A conjunction is heavier than the negated disjunction of the negated members. -/
theorem reduceAnd_falls (known : s.Bounded config δ t (s.weight config t))
    (view : s.view t = (.and, args)) :
    (reduceAnd t args).Ensures config s fun o after =>
      o.Falls after config δ (s.weight config t) := by
  obtain ⟨head, rfl⟩ := Store.view_eq_iff.mp view
  have head : s.op t = junctionHead true := head
  have weight := weight_of_junction config head
  unfold reduceAnd
  refine ensures_bind (reduceJunction_falls fun a member => known.of_mem_args member)
    fun outcome after grown result => ensures_read_bind ?_
  rw [← weight] at result
  split
  · exact ensures_pure result
  refine ensures_peek_bind ?_
  split
  · next members view =>
    -- Whether or not the conjunction was changed, what is looked at is no heavier.
    have seen : after.Bounded config δ (outcome.result?.getD t) (s.weight config t) := by
      cases outcome with
      | failed => exact known.mono grown
      | done r => exact result
      | revisit depth r =>
        obtain ⟨m, less, known⟩ := result
        exact known.le less.le
      | revisitAll r => exact result.elim
    obtain ⟨head, rfl⟩ := Store.view_eq_iff.mp view
    have head : after.op _ = junctionHead true := head
    have lighter := seen.weight_le
    rw [weight_of_junction config head] at lighter
    have each := fun a member => seen.of_mem_args (a := a) member
    generalize after.args _ = members at lighter each
    have negate : ∀ a ∈ members, ∀ now, after.Extends now →
        (liftM (mkNot a) : Rule TermId).Ensures config now fun b later =>
          later.Bounded config δ b (after.weight config a + 2) := fun a member now more =>
      ensures_lift (mkNot_bounded ((each a member).mono more))
    refine ensures_bind (ensures_mapM_bounded negate) fun negated middle _ bounded => ?_
    refine ensures_bind (ensures_lift (mkOr_bounded bounded)) fun clause now _ built => ?_
    refine ensures_revisit (mkNot_bounded built) (lt_of_lt_of_le ?_ lighter)
    simp [load, surcharge, Function.comp_def, Nat.add_assoc]
  · exact ensures_pure result

end Gathering

/-- Two terms with bounds. -/
theorem bounded_pair {m : ℕ} (first : s.Bounded config δ a m) (second : s.Bounded config δ b n) :
    List.Forall₂ (s.Bounded config δ) [a, b] [m, n] := .cons first (.cons second .nil)

/-- Case distinction between booleans. -/
theorem reduceBoolIte_falls {m : ℕ} (condition : s.Bounded config δ c k)
    (yes : s.Bounded config δ a m) (no : s.Bounded config δ b n) :
    (reduceBoolIte c a b).Ensures config s fun o after =>
      o.Falls after config δ (2 * (k + m + n) + 20) := by
  unfold reduceBoolIte
  split
  · exact ensures_pure (condition.le (by omega))
  split
  · exact ensures_revisit (mkNot_bounded condition) (by omega)
  split
  · exact ensures_revisit (mkOr_bounded (bounded_pair condition no)) (by simp; omega)
  split
  · exact ensures_revisit (mkAnd_bounded (bounded_pair condition yes)) (by simp; omega)
  split
  · refine ensures_bind (ensures_lift (mkNot_bounded condition)) fun d middle grown negated => ?_
    exact ensures_revisit (mkAnd_bounded (bounded_pair negated (no.mono grown)))
      (by simp; omega)
  split
  · refine ensures_bind (ensures_lift (mkNot_bounded condition)) fun d middle grown negated => ?_
    exact ensures_revisit (mkOr_bounded (bounded_pair negated (yes.mono grown)))
      (by simp; omega)
  · exact ensures_pure trivial

/-- Case distinction. -/
theorem reduceIte_falls {m : ℕ} (condition : s.Bounded config δ c (s.weight config c))
    (yes : s.Bounded config δ a m) (no : s.Bounded config δ b n) :
    (reduceIte c a b).Ensures config s fun o after =>
      o.Falls after config δ (2 * (s.weight config c + m + n) + 20) := by
  unfold reduceIte
  split
  · exact ensures_pure (yes.le (by omega))
  split
  · exact ensures_pure (no.le (by omega))
  split
  · exact ensures_pure (yes.le (by omega))
  refine ensures_peek_bind ?_
  split
  · next d view =>
    have member : d ∈ s.args c := by rw [(Store.view_eq_iff.mp view).2]; simp
    have weight := Store.weight_of_view config view
    refine ensures_revisit (mkIte_bounded (condition.of_mem_args member) no yes) ?_
    simp only [Op.weigh, List.map_cons, List.map_nil, List.sum_cons, List.sum_nil] at weight
    omega
  · refine ensures_peek_bind ?_
    split
    · exact reduceBoolIte_falls condition yes no
    · exact ensures_pure trivial

/-- Equality with a truth value or a negation. -/
theorem reduceIff_falls (known : s.Bounded config δ a n) :
    (reduceIff a b).Ensures config s fun answer after =>
      ∀ o ∈ answer, o.Falls after config δ (n + 20) := by
  unfold reduceIff
  split
  · exact ensures_pure fun o same => Option.some.inj same ▸ known.le (by omega)
  split
  · refine ensures_bind (ensures_lift (mkNot_bounded known)) fun r _ _ built => ?_
    exact ensures_pure fun o same => Option.some.inj same ▸ ⟨n + 2, by omega, built⟩
  refine ensures_peek_bind ?_
  split
  · refine ensures_pure fun o same => ?_
    split at same
    · exact Option.some.inj same ▸ (bounded_ofBool s false).le (by omega)
    · cases same
  · exact ensures_pure nofun

/-- Equality, which may count the weight of its sides if they are formulas. -/
theorem reduceEq_falls {m : ℕ} (left : s.Bounded config δ a m) (right : s.Bounded config δ b n)
    (counted : s.isBool a = true → m + n + 20 ≤ k) (some : 1 ≤ k) :
    (reduceEq a b).Ensures config s fun o after => o.Falls after config δ k := by
  unfold reduceEq
  split
  · exact ensures_pure ((bounded_ofBool s true).le some)
  refine ensures_peek_bind ?_
  split
  · exact ensures_pure ((bounded_ofBool s false).le some)
  refine ensures_peek_bind ?_
  split
  · next bool =>
    have counted := counted bool
    refine ensures_bind (reduceIff_falls left) fun answer middle grown known => ?_
    split
    · next o => exact ensures_pure ((known o rfl).le (by omega))
    refine ensures_bind (reduceIff_falls (right.mono grown)) fun answer after _ known => ?_
    refine ensures_pure ?_
    cases answer with
    | none => trivial
    | some o => exact (known o rfl).le (by omega)
  · exact ensures_pure trivial

/-- Pairwise difference. -/
theorem reduceDistinct_falls (known : s.Bounded config δ t (s.weight config t))
    (view : s.view t = (.distinct, args)) :
    (reduceDistinct args).Ensures config s fun o after =>
      o.Falls after config δ (s.weight config t) := by
  have weight := Store.weight_of_view config view
  obtain ⟨head, rfl⟩ := Store.view_eq_iff.mp view
  have absorbed (p : Bool) : s.Bounded config δ (ofBool p) (s.weight config t) :=
    (bounded_ofBool s p).le (s.one_le_weight config t)
  unfold reduceDistinct
  split
  · exact ensures_pure (absorbed true)
  split
  · exact ensures_pure (absorbed false)
  split
  · next a b pair =>
    have rank := known.rank_le
    rw [Store.rank_eq, head, pair] at rank
    rw [pair] at weight
    have sides : List.Forall₂ (s.Bounded config _) [a, b] ([a, b].map (s.weight config)) :=
      Store.Bounded.self_all config fun a member => ⟨(known.of_mem_args (pair ▸ member)).inside,
        List.le_max_of_le (List.mem_map_of_mem member) le_rfl⟩
    refine ensures_bind (ensures_lift (mkApp_bounded .eq sides rank le_rfl))
      fun e middle grown equation => ?_
    refine ensures_revisit (mkNot_bounded equation) ?_
    rw [weight]
    simp only [Op.weigh]
    omega
  · refine ensures_peek_bind ?_
    split
    · exact ensures_pure (absorbed true)
    · exact ensures_pure trivial

/-- The rules for connectives let a well-sorted term fall. -/
theorem reduce_falls (sorted : s.WellSorted Γ t) (rank : s.rank t ≤ δ) :
    (reduce t).Ensures config s fun o after => o.Falls after config δ (s.weight config t) := by
  have known : s.Bounded config δ t (s.weight config t) := .self sorted.inside rank
  have bounded {op : Op} {args : List TermId} (view : s.view t = (op, args)) :
      ∀ a ∈ args, s.Bounded config δ a (s.weight config a) := by
    obtain ⟨_, rfl⟩ := Store.view_eq_iff.mp view
    exact fun a => known.of_mem_args
  unfold reduce
  refine ensures_peek_bind ?_
  split
  · next a view =>
    rw [Store.weight_of_view config view]
    exact reduceNot_falls (bounded view a (by simp))
  · next args view => exact reduceAnd_falls known view
  · next args view =>
    obtain ⟨head, rfl⟩ := Store.view_eq_iff.mp view
    have head : s.op t = junctionHead false := head
    rw [weight_of_junction config head]
    exact reduceJunction_falls fun a => known.of_mem_args
  · next a b view =>
    rw [Store.weight_of_view config view]
    refine ensures_bind (ensures_lift (mkNot_bounded (bounded view a (by simp))))
      fun n middle grown negated => ?_
    refine ensures_revisit (mkOr_bounded (bounded_pair negated
      ((bounded view b (by simp)).mono grown))) ?_
    simp [Op.weigh]
    omega
  · next a b view =>
    have formula : (s.gauge [a, b]).arith = false := by
      have fits := sorted.fits
      rw [(Store.view_eq_iff.mp view).1, (Store.view_eq_iff.mp view).2] at fits
      rw [Store.gauge, Store.headSort, fits.2.1]
      rfl
    rw [Store.weight_of_view config view]
    have sides := bounded_pair (bounded view a (by simp)) (bounded view b (by simp))
    have built : (mkApp .eq [a, b]).Ensures s fun e after => after.Bounded config δ e _ :=
      mkApp_bounded .eq sides (by simp [Op.lifts, formula]) le_rfl
    refine ensures_bind (ensures_lift built) fun e middle grown equation => ?_
    refine ensures_revisit (mkNot_bounded equation) ?_
    simp [Op.weigh, formula]
  · next c a b view =>
    rw [Store.weight_of_view config view]
    simpa [Op.weigh, Nat.add_assoc] using reduceIte_falls (bounded view c (by simp))
      (bounded view a (by simp)) (bounded view b (by simp))
  · next a b view =>
    refine reduceEq_falls (bounded view a (by simp)) (bounded view b (by simp)) (fun bool => ?_)
      (s.one_le_weight config t)
    have formula : (s.gauge [a, b]).arith = false := by
      rw [Store.gauge, Store.headSort, eq_of_beq bool]
      rfl
    simp [Store.weight_of_view config view, Op.weigh, formula, Nat.add_assoc]
  · next args view => exact reduceDistinct_falls known view
  · exact ensures_pure trivial

end Stratagem.Connective
