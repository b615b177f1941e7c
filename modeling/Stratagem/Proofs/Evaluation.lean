import Stratagem.Proofs.Model
import Stratagem.Proofs.Rewriting.Evaluator
import Stratagem.Proofs.Term.Substitution

/-!
# Evaluation of terms in models

A model that gives literals to constants determines the value of every well-sorted term without
quantifiers in which no divisor is zero, once the other constants have the default values of their
sorts. Evaluation computes it: the literals are put in the place of the constants, and the
simplifier turns the result, which has no constants left, into the literal of its value.
-/
namespace Stratagem

open Terms

/-- A substitution puts the literals of their values in the place of constants. -/
def Store.Assigns (s : Store) (map : Substitution) (I : TermId → Option Scalar) : Prop :=
  ∀ c u, map[c]? = some u → (∃ name, s.op c = .var name) ∧
    ∃ v, I c = some v ∧ v.sort = s.sortOf c ∧ s.Literal v u

/-- Operators with a rank have the sort that their constructor gives them. -/
theorem Op.hasOwnSort_of_rank {op : Op} {sorts : List TermSort} {sort : TermSort}
    (ranked : op.rank sorts = some sort) : op.hasOwnSort = false := by
  cases op with
  | apply | universal | existential => simp [Op.rank] at ranked
  | _ => rfl

/-- The default value of a sort is of that sort. -/
theorem TermSort.sort_of_default? {sort : TermSort} {v : Scalar} (known : sort.default? = some v) :
    v.sort = sort := by
  cases sort <;> cases known <;> rfl

namespace Store

variable {s after : Store} {map : Substitution} {I : TermId → Option Scalar} {c t u : TermId}
  {v : Scalar}

/-- What occurs in a term does so when the store grows, and nothing else. -/
theorem Extends.occurs_iff (grown : s.Extends after) (inside : t < s.size) :
    after.Occurs c t ↔ s.Occurs c t := by
  constructor
  · intro occurs
    induction occurs with
    | here => exact .here
    | @there a t member _ below =>
      rw [grown.args_eq inside] at member
      exact .there member (below ((lt_of_mem_args member).trans inside))
  · intro occurs
    induction occurs with
    | here => exact .here
    | @there a t member _ below =>
      have within := (lt_of_mem_args member).trans inside
      exact .there (by rwa [grown.args_eq inside]) (below within)

/-- What occurs in a well-sorted term is well-sorted. -/
theorem IsScalar.of_occurs (known : s.IsScalar t) (occurs : s.Occurs c t) : s.IsScalar c := by
  induction occurs with
  | here => exact known
  | there member _ below => exact below (known.of_mem_args member)

/-- A well-sorted constant has a sort with a default value. -/
theorem IsScalar.exists_default {name : String} (known : s.IsScalar t) (var : s.op t = .var name) :
    ∃ v, (s.sortOf t).default? = some v := by
  cases known with
  | constant node literals =>
    rw [sortOf, node]
    exact Option.isSome_iff_exists.mp literals
  | application _ _ ranked => exact absurd var (op_ne_var_of_rank ranked name)

/-- A literal is a well-sorted term. -/
theorem Literal.isScalar (known : s.Literal v t) : s.IsScalar t := by
  have view := view_eq_iff.mp known.view
  refine .application known.inside ?_ ?_ ?_
  · rw [known.sort, view.1, view.2]
    cases v <;> rfl
  · rw [known.sort, view.1, view.2]
    cases v with
    | word width x => exact if_pos x.isLt
    | _ => rfl
  · rw [view.2]
    nofun

/-- A substitution puts the same literals in the place of constants when the store grows. -/
theorem Assigns.mono (assigns : s.Assigns map I) (grown : s.Extends after) :
    after.Assigns map I := by
  intro c u found
  obtain ⟨⟨name, var⟩, v, value, sort, literal⟩ := assigns c u found
  have inside : c < s.size := lt_size_of_var var
  refine ⟨⟨name, (grown.op_eq inside).trans var⟩, v, value, ?_, literal.mono grown⟩
  rw [grown.sortOf_eq inside, sort]

end Store

/-- A term without constants has the value that another one has under an assignment. -/
structure Store.Grounds (s : Store) (I : TermId → Option Scalar) (u t : TermId) : Prop where
  /-- The other term is in the store. -/
  inside : t < s.size
  /-- The term is well-sorted. -/
  scalar : s.IsScalar u
  /-- The sorts agree. -/
  sort : s.sortOf u = s.sortOf t
  /-- The values agree. -/
  value : ∀ v, s.evaluate I t = some v → s.evaluate (fun _ => none) u = some v

section Grounding

variable {s after : Store} {map : Substitution} {I : TermId → Option Scalar} {t u : TermId}
  {v : Scalar} {args : List TermId}

/-- Values stay the same when the store grows. -/
theorem Store.Grounds.mono (known : s.Grounds I u t) (grown : s.Extends after) :
    after.Grounds I u t where
  inside := grown.lt_size known.inside
  scalar := known.scalar.mono grown
  sort := by rw [grown.sortOf_eq known.scalar.inside, grown.sortOf_eq known.inside, known.sort]
  value v found := by
    rw [grown.evaluate_eq known.inside] at found
    rw [grown.evaluate_eq known.scalar.inside, known.value v found]

/-- Terms without constants have the values of other ones, one by one. -/
theorem Store.Grounds.values {old : List TermId} {vs : List Scalar}
    (known : List.Forall₂ (s.Grounds I) args old)
    (values : List.Forall₂ (fun a w => s.evaluate I a = some w) old vs) :
    List.Forall₂ (fun a w => s.IsScalar a ∧ s.evaluate (fun _ => none) a = some w) args vs := by
  induction known generalizing vs with
  | nil =>
    obtain rfl := List.forall₂_nil_left_iff.mp values
    exact .nil
  | cons here _ tail =>
    obtain ⟨w, rest, value, others, rfl⟩ := List.forall₂_cons_left_iff.mp values
    exact .cons ⟨here.scalar, here.value w value⟩ (tail others)

/-- An application is rebuilt from arguments without constants. -/
theorem rebuild_grounds (known : s.IsScalar t) (other : ∀ name, s.op t ≠ .var name)
    (stands : List.Forall₂ (s.Grounds I) args (s.args t)) :
    (rebuild t args).Ensures s fun u after => after.Grounds I u t := by
  obtain ⟨built, ranked⟩ := known.sort_of_application other
  have whole : s.Built (s.op t) (s.args t) (s.sortOf t) t := ⟨known.inside, rfl, built⟩
  have scalars : ∀ a ∈ args, s.IsScalar a := by
    intro a member
    obtain ⟨_, _, stand⟩ := exists_of_forall₂ stands member
    exact stand.scalar
  have sorts : args.map s.sortOf = (s.args t).map s.sortOf := by
    rw [← List.forall₂_eq_eq_eq, List.forall₂_map_left_iff, List.forall₂_map_right_iff]
    exact stands.imp fun a b stand => stand.sort
  refine (rebuild_built whole (Op.hasOwnSort_of_rank ranked) (fun a member =>
    (scalars a member).inside) sorts).imp fun u after grown rebuilt => ?_
  have later : args.map after.sortOf = (s.args t).map s.sortOf := by
    rw [← sorts]
    exact List.map_congr_left fun a member => grown.sortOf_eq (scalars a member).inside
  refine ⟨grown.lt_size known.inside, .of_built rebuilt (by rw [later, ranked]) ?_, ?_, ?_⟩
  · exact fun a member => (scalars a member).mono grown
  · rw [rebuilt.sort_eq, grown.sortOf_eq known.inside]
  · intro v value
    rw [grown.evaluate_eq known.inside] at value
    obtain ⟨vs, values, applied, sort⟩ := (Store.evaluate_eq_some other).mp value
    refine rebuilt.evaluate ?_ applied sort
    exact (Store.Grounds.values stands values).imp fun a w ground =>
      (grown.evaluate_eq ground.1.inside).trans ground.2

/-- Well-sorted terms whose constants are replaced by the literals of their values. -/
def grounding (assigns : s.Assigns map I) : Replacement map s where
  Member s t := s.IsScalar t ∧
    ∀ c name, s.Occurs c t → s.op c = .var name → map.contains c = true
  Stands s u t := s.Grounds I u t
  inside := fun member => member.1.inside
  args := by
    rintro s t a ⟨known, covered⟩ member
    exact ⟨known.of_mem_args member, fun c name occurs => covered c name (.there member occurs)⟩
  mono := by
    rintro s after t ⟨known, covered⟩ grown
    refine ⟨known.mono grown, fun c name occurs var => ?_⟩
    have occurs := (grown.occurs_iff known.inside).mp occurs
    rw [grown.op_eq (known.of_occurs occurs).inside] at var
    exact covered c name occurs var
  back := by
    rintro s after t grown inside ⟨known, covered⟩
    refine ⟨known.of_extends grown inside, fun c name occurs var => ?_⟩
    refine covered c name ((grown.occurs_iff inside).mpr occurs) ?_
    rw [grown.op_eq (Nat.lt_of_le_of_lt occurs.le inside), var]
  unbound := fun member => (member.1.plain _ .here).1
  lasting := fun stands => stands.mono
  image := by
    rintro now t u grown ⟨known, _⟩ found
    obtain ⟨⟨name, var⟩, v, assigned, sort, literal⟩ := assigns.mono grown t u found
    refine ⟨known.inside, literal.isScalar, literal.sort.trans sort, fun w value => ?_⟩
    rw [Store.evaluate_var var, assigned, Option.filter_some, if_pos (decide_eq_true sort)] at value
    rw [literal.evaluate, value]
  rebuilt := by
    rintro now t args grown ⟨known, covered⟩ absent stands
    refine rebuild_grounds known (fun name var => ?_) stands
    have present := covered t name .here var
    rw [Std.HashMap.contains_eq_isSome_getElem?, absent] at present
    cases present

/-- Putting the literals of their values in the place of all constants of a term gives a term with
its value. -/
theorem substitute_grounds (assigns : s.Assigns map I) (known : s.IsScalar t)
    (covered : ∀ c name, s.Occurs c t → s.op c = .var name → map.contains c = true) :
    (substitute t map).Ensures s fun u after =>
      after.Grounds I u t ∧ after.size ≤ s.size + (t + 1) := by
  cases empty : map.isEmpty with
  | false => exact (grounding assigns).substitute_ensures ⟨known, covered⟩ empty
  | true =>
    -- Without an image for any constant there is no constant, and the term stays as it is.
    have closed : ∀ J, s.evaluate I t = s.evaluate J t := by
      refine fun J => Store.evaluate_congr fun c name occurs var => ?_
      have present := covered c name occurs var
      rw [Std.HashMap.contains_of_isEmpty empty] at present
      cases present
    unfold substitute
    rw [if_pos empty]
    refine ensures_pure ⟨⟨known.inside, known, rfl, fun v value => ?_⟩, Nat.le_add_right _ _⟩
    rw [← closed, value]

end Grounding

namespace Model

variable {m : Model} {s after : Store} {map : Substitution} {I : TermId → Option Scalar}
  {c t u : TermId} {v : Scalar}

/-- The default value of a sort is written down. -/
theorem defaultOf_literal {sort : TermSort} (known : sort.default? = some v) :
    (defaultOf sort).Ensures s fun found after =>
      (∃ u, found = some u ∧ after.Literal v u) ∧ after.size ≤ s.size + 1 := by
  have written {work : Terms TermId} (literal : work.Ensures s fun u after => after.Literal v u)
      (size : work.Ensures s fun _ after => after.size ≤ s.size + 1) :
      (do return some (← work) : Terms (Option TermId)).Ensures s fun found after =>
        (∃ u, found = some u ∧ after.Literal v u) ∧ after.size ≤ s.size + 1 :=
    ensures_bind (literal.and size) fun u _ _ found =>
      ensures_pure ⟨⟨u, rfl, found.1⟩, found.2⟩
  cases sort with
  | bool =>
    cases known
    exact ensures_pure ⟨⟨_, rfl, .ofBool s false⟩, Nat.le_succ _⟩
  | int =>
    cases known
    exact written ((intern_node (by simp)).imp fun u _ _ found => ⟨found.1, found.2⟩) (intern_size _)
  | real =>
    cases known
    exact written ((intern_node (by simp)).imp fun u _ _ found => ⟨found.1, found.2⟩) (intern_size _)
  | bitVec width =>
    cases known
    exact written (BitVector.mkBitVec_literal (by simp)) (mkApp_size _ _)
  | _ => cases known

/-- Constants without a value get the default of their sort: all have values then, which stand in a
relation to them if the given and the default ones do, and the store has grown by at most one
literal for each. -/
theorem complete_ensures {related : Store → TermId → TermId → Prop} {n : ℕ}
    {constants : List TermId}
    (lasting : ∀ c u before after, before.Extends after → related before c u → related after c u)
    (given : ∀ c u, map[c]? = some u → related s c u) (below : ∀ c ∈ constants, c < n)
    (defaults : ∀ c ∈ constants, map[c]? = none → ∀ now, s.Extends now →
      (defaultOf (now.sortOf c)).Ensures now fun found after =>
        (∃ u, found = some u ∧ related after c u) ∧ after.size ≤ now.size + 1) :
    (complete map constants).Ensures s fun found after =>
      (∀ c u, found[c]? = some u → related after c u) ∧
      (∀ c, map.contains c = true ∨ c ∈ constants → found.contains c = true) ∧
      after.size + found.missing n ≤ s.size + map.missing n := by
  induction constants generalizing s map with
  | nil =>
    refine ensures_pure ⟨given, fun c present => ?_, Nat.le_refl _⟩
    simpa using present
  | cons c rest tail =>
    obtain ⟨first, later⟩ := List.forall_mem_cons.mp below
    obtain ⟨here, others⟩ := List.forall_mem_cons.mp defaults
    unfold complete
    split
    · next present =>
      refine (tail given later others).imp fun found after _ result => ?_
      refine ⟨result.1, fun k known => result.2.1 k ?_, result.2.2⟩
      rcases known with known | known
      · exact .inl known
      · rcases List.mem_cons.mp known with rfl | known
        · exact .inl present
        · exact .inr known
    · next absent =>
      have new : map[c]? = none := by
        rw [Std.HashMap.contains_eq_isSome_getElem?, Bool.not_eq_true, Option.isSome_eq_false_iff,
          Option.isNone_iff_eq_none] at absent
        exact absent
      refine ensures_read_bind (ensures_bind (here new s (.refl s)) ?_)
      rintro _ middle grown ⟨⟨u, rfl, found⟩, one⟩
      have given : ∀ k w, (map.insert c u)[k]? = some w → related middle k w := by
        intro k w there
        rw [Std.HashMap.getElem?_insert] at there
        split at there
        · next same =>
          obtain rfl := eq_of_beq same
          obtain rfl := Option.some.inj there
          exact found
        · exact lasting k w s middle grown (given k w there)
      have others : ∀ k ∈ rest, (map.insert c u)[k]? = none → ∀ now, middle.Extends now →
          (defaultOf (now.sortOf k)).Ensures now fun found after =>
            (∃ u, found = some u ∧ related after k u) ∧ after.size ≤ now.size + 1 := by
        intro k member missing now more
        rw [Std.HashMap.getElem?_insert] at missing
        split at missing
        · cases missing
        · exact others k member missing now (grown.trans more)
      refine (tail given later others).imp fun found after _ result => ?_
      refine ⟨result.1, fun k known => result.2.1 k ?_, ?_⟩
      · rw [Std.HashMap.contains_insert, Bool.or_eq_true, beq_iff_eq]
        rcases known with known | known
        · exact .inl (.inr known)
        · rcases List.mem_cons.mp known with rfl | known
          · exact .inl (.inl rfl)
          · exact .inr known
      · have fewer : Substitution.missing (map.insert c u) n + 1 = map.missing n :=
          Substitution.missing_insert new first
        have size := result.2.2
        omega

/-- Constants without a value get the literal of the default of their sort. -/
theorem complete_assigns {n : ℕ} {constants : List TermId} (assigns : s.Assigns map I)
    (below : ∀ c ∈ constants, c < n)
    (defaults : ∀ c ∈ constants, (∃ name, s.op c = .var name) ∧
      (map[c]? = none → ∃ v, I c = some v ∧ (s.sortOf c).default? = some v)) :
    (complete map constants).Ensures s fun found after => after.Assigns found I ∧
      (∀ c, map.contains c = true ∨ c ∈ constants → found.contains c = true) ∧
      after.size + found.missing n ≤ s.size + map.missing n := by
  refine complete_ensures (fun c u before after grown known => ?_) assigns below
    fun c member absent now grown => ?_
  · obtain ⟨⟨name, var⟩, v, value, sort, literal⟩ := known
    have inside : c < before.size := Store.lt_size_of_var var
    refine ⟨⟨name, (grown.op_eq inside).trans var⟩, v, value, ?_, literal.mono grown⟩
    rw [grown.sortOf_eq inside, sort]
  · obtain ⟨⟨name, var⟩, default⟩ := defaults c member
    obtain ⟨v, value, default⟩ := default absent
    have inside : c < s.size := Store.lt_size_of_var var
    rw [← grown.sortOf_eq inside] at default
    refine (defaultOf_literal default).imp fun found after more result => ?_
    obtain ⟨⟨u, same, literal⟩, one⟩ := result
    have later := grown.trans more
    refine ⟨⟨u, same, ⟨name, (later.op_eq inside).trans var⟩, v, value, ?_, literal⟩, one⟩
    rw [more.sortOf_eq (grown.lt_size inside), TermSort.sort_of_default? default]

/-- A model gives literals to constants of their sorts, one to each. -/
structure Valued (m : Model) (s : Store) : Prop where
  /-- No constant has two entries. -/
  distinct : (m.entries.map Prod.fst).Nodup
  /-- Only constants have values. -/
  constants : ∀ c u, m.get? c = some u → ∃ name, s.op c = .var name
  /-- Values are literals of the sorts of the constants. -/
  literals : ∀ c u, m.get? c = some u → ∃ v, s.Literal v u ∧ v.sort = s.sortOf c

/-- The assignment of values that a model determines: constants without a literal have the default
value of their sort. -/
def completed (m : Model) (s : Store) (c : TermId) : Option Scalar :=
  match m.get? c with
  | some u => s.evaluate (fun _ => none) u
  | none => (s.sortOf c).default?

/-- The model without entries gives no values. -/
theorem valued_empty (s : Store) : Valued {} s where
  distinct := .nil
  constants k w found := by simp at found
  literals k w found := by simp at found

/-- Giving a literal to a constant. -/
theorem Valued.insert {name : String} (valued : m.Valued s) (var : s.op c = .var name)
    (literal : s.Literal v u) (sort : v.sort = s.sortOf c) : (m.insert c u).Valued s where
  distinct := (m.insert c u).nodup
  constants k w found := by
    rw [get?_insert] at found
    split at found
    · next same => exact ⟨name, same ▸ var⟩
    · exact valued.constants k w found
  literals k w found := by
    rw [get?_insert] at found
    split at found
    · next same =>
      obtain rfl := Option.some.inj found
      exact ⟨v, literal, same ▸ sort⟩
    · exact valued.literals k w found

/-- The entries of a model as a substitution. -/
theorem getElem?_ofList (distinct : (m.entries.map Prod.fst).Nodup) (c : TermId) :
    (Std.HashMap.ofList m.entries)[c]? = m.get? c := by
  have apart : m.entries.Pairwise fun a b => (a.1 == b.1) = false :=
    (List.pairwise_map.mp distinct).imp fun different => beq_false_of_ne different
  rw [get?_eq_lookup]
  cases found : m.entries.lookup c with
  | some u =>
    obtain ⟨before, rest, same, _⟩ := List.lookup_eq_some_iff.mp found
    exact Std.HashMap.getElem?_ofList_of_mem (beq_self_eq_true c) apart (by simp [same])
  | none =>
    refine Std.HashMap.getElem?_ofList_of_contains_eq_false ?_
    rw [List.lookup_eq_none_iff] at found
    rw [List.contains_eq_mem, decide_eq_false_iff_not, List.mem_map]
    rintro ⟨entry, member, rfl⟩
    exact (bne_iff_ne.mp (found entry member)) rfl

/-- The literals that a model gives to constants are those of the values it determines. -/
theorem Valued.assigns (valued : m.Valued s) :
    s.Assigns (Std.HashMap.ofList m.entries) (m.completed s) := by
  intro c u found
  rw [getElem?_ofList valued.distinct] at found
  obtain ⟨v, literal, sort⟩ := valued.literals c u found
  refine ⟨valued.constants c u found, v, ?_, sort, literal⟩
  rw [completed, found]
  exact literal.evaluate _

/-- The constants of a well-sorted term have values of their sorts. -/
theorem Valued.exists_completed {name : String} (valued : m.Valued s) (scalar : s.IsScalar c)
    (var : s.op c = .var name) : ∃ v, m.completed s c = some v ∧ v.sort = s.sortOf c := by
  unfold completed
  cases found : m.get? c with
  | some u =>
    obtain ⟨v, literal, sort⟩ := valued.literals c u found
    exact ⟨v, literal.evaluate _, sort⟩
  | none =>
    obtain ⟨v, default⟩ := scalar.exists_default var
    exact ⟨v, default, TermSort.sort_of_default? default⟩

/-- Evaluation with completion in a model of literals gives the literal of the value of a well-sorted
term without quantifiers in which no divisor is zero. Positions of terms are words of 32 bits, so
that the limit on the steps is never reached. -/
theorem eval_literal (scalar : s.IsScalar t) (valued : m.Valued s)
    (nonzero : s.DivisorsNonzero (m.completed s) t) (small : s.size ≤ 2 ^ 32) :
    ∃ v, s.evaluate (m.completed s) t = some v ∧ v.sort = s.sortOf t ∧
      (m.eval t true).Ensures s fun o after =>
        ∃ u, o = .ok u ∧ ∀ w, after.Literal v w ↔ w = u := by
  obtain ⟨v, value⟩ := scalar.exists_evaluate nonzero fun c name occurs var =>
    valued.exists_completed (scalar.of_occurs occurs) var
  refine ⟨v, value, Store.sort_of_evaluate value, ?_⟩
  have below : ∀ c ∈ s.freeConstants t, c < t + 1 := fun c member =>
    Nat.lt_succ_of_le (Store.occurs_of_mem_freeConstants member).1.le
  have defaults : ∀ c ∈ s.freeConstants t, (∃ name, s.op c = .var name) ∧
      ((Std.HashMap.ofList m.entries)[c]? = none → ∃ v, m.completed s c = some v ∧
        (s.sortOf c).default? = some v) := by
    intro c member
    obtain ⟨occurs, name, var⟩ := Store.occurs_of_mem_freeConstants member
    refine ⟨⟨name, var⟩, fun absent => ?_⟩
    obtain ⟨v, default⟩ := (scalar.of_occurs occurs).exists_default var
    rw [getElem?_ofList valued.distinct] at absent
    exact ⟨v, by rw [completed, absent, default], default⟩
  unfold eval
  refine ensures_read_bind ?_
  refine ensures_bind (complete_assigns valued.assigns below defaults) ?_
  rintro map middle grown ⟨assigns, covers, size⟩
  have covered : ∀ c name, middle.Occurs c t → middle.op c = .var name →
      map.contains c = true := by
    intro c name occurs var
    have occurs := (grown.occurs_iff scalar.inside).mp occurs
    rw [grown.op_eq (scalar.of_occurs occurs).inside] at var
    exact covers c (.inr (Store.mem_freeConstants scalar.plain occurs var))
  refine ensures_bind (substitute_grounds assigns (scalar.mono grown) covered) ?_
  rintro u last more ⟨grounds, added⟩
  have ground : last.evaluate (fun _ => none) u = some v := by
    refine grounds.value v ?_
    rw [more.evaluate_eq (grown.lt_size scalar.inside), grown.evaluate_eq scalar.inside, value]
  have few : 4 * (u + 1) ≤ SimplifierConfig.maxSteps {} := by
    have missing := Substitution.missing_le (Std.HashMap.ofList m.entries) (t + 1)
    have within : Nat.succ t ≤ s.size := scalar.inside
    have inside : Nat.succ u ≤ last.size := grounds.scalar.inside
    show 4 * Nat.succ u ≤ 18446744073709551615
    omega
  refine (Rewriting.simplify_ground grounds.scalar ground few).imp ?_
  rintro o after _ ⟨r, rfl, literal⟩
  exact ⟨r, rfl, fun w => ⟨fun other => other.unique literal, fun same => same ▸ literal⟩⟩

/-- A constant is divided by two, and another one is added; the constant, a literal for it and the
result. -/
def quotient : Terms (TermId × TermId × TermId) := do
  let x ← mkVar "x" .int
  let y ← mkVar "y" .int
  let two ← mkInt 2
  let literal ← mkInt (-7)
  let q ← mkApp .intDiv [x, two]
  let t ← mkAdd [q, y]
  return (x, literal, t)

/-- What there is after the quotient is built. -/
theorem quotient_built (s : Store) : quotient.Ensures s fun found after =>
    after.size ≤ s.size + 6 ∧ after.Literal (.int (-7)) found.2.1 ∧
    after.node found.1 = ⟨.var "x", [], .int⟩ ∧ ∃ y two q,
      after.node y = ⟨.var "y", [], .int⟩ ∧ after.Literal (.int 2) two ∧
      after.Built .intDiv [found.1, two] .int q ∧ after.Built .add [q, y] .int found.2.2 := by
  have integer (n : ℤ) (s : Store) : (mkInt n).Ensures s fun u after =>
      after.Literal (.int n) u ∧ after.size ≤ s.size + 1 :=
    ((intern_node (by simp)).and (intern_size _)).imp fun u _ _ found =>
      ⟨⟨found.1.1, found.1.2⟩, found.2⟩
  have application {op : Op} {args : List TermId} {s : Store} (inside : ∀ a ∈ args, a < s.size)
      (sort : .int = s.inferSort op args) : (mkApp op args).Ensures s fun u after =>
        after.Built op args .int u ∧ after.size ≤ s.size + 1 :=
    (mkApp_built inside sort).and (mkApp_size op args)
  refine ensures_bind ((mkVar_node "x" .int).and (mkVar_size _ _)) ?_
  rintro x s₁ - ⟨⟨inside_x, node_x⟩, size₁⟩
  refine ensures_bind ((mkVar_node "y" .int).and (mkVar_size _ _)) ?_
  rintro y s₂ grown₁ ⟨⟨inside_y, node_y⟩, size₂⟩
  refine ensures_bind (integer 2 s₂) ?_
  rintro two s₃ grown₂ ⟨divisor, size₃⟩
  refine ensures_bind (integer (-7) s₃) ?_
  rintro literal s₄ grown₃ ⟨known, size₄⟩
  have later := grown₁.trans (grown₂.trans grown₃)
  have within_x := later.lt_size inside_x
  have within_y := (grown₂.trans grown₃).lt_size inside_y
  have divisor := divisor.mono grown₃
  refine ensures_bind (application (by simp [within_x, divisor.inside]) rfl) ?_
  rintro q s₅ grown₄ ⟨divided, size₅⟩
  have within_y' := grown₄.lt_size within_y
  have node_y' : s₅.node y = ⟨.var "y", [], .int⟩ := by
    rw [(grown₂.trans (grown₃.trans grown₄)).node_eq inside_y, node_y]
  have int : .int = s₅.inferSort .add [q, y] := by
    have sort_y : s₅.sortOf y = .int := by rw [Store.sortOf, node_y']
    exact (arithJoin_eq rfl (by simp) (by simp [divided.sort_eq, sort_y])).symm
  refine ensures_bind (application (by simp [divided.inside, within_y']) int) ?_
  rintro t s₆ grown₅ ⟨added, size₆⟩
  have all := later.trans (grown₄.trans grown₅)
  refine ensures_pure ⟨by omega, known.mono (grown₄.trans grown₅), ?_, y, two, q, ?_,
    divisor.mono (grown₄.trans grown₅), divided.mono grown₅, added⟩
  · rw [all.node_eq inside_x, node_x]
  · rw [grown₅.node_eq within_y', node_y']

/-- If the first constant is minus seven, the quotient is minus four, and the other constant, which
has no value, is zero. -/
theorem eval_literal_case : ∃ (m : Model) (s : Store) (x y two q t : TermId),
    s.view t = (.add, [q, y]) ∧ s.view q = (.intDiv, [x, two]) ∧ s.Literal (.int 2) two ∧
      m.completed s x = some (.int (-7)) ∧ m.get? y = none ∧
      (m.eval t true).Ensures s fun o after => ∃ u, o = .ok u ∧ after.Literal (.int (-4)) u := by
  obtain ⟨x, literal, t, s, size, known, node_x, y, two, q, node_y, divisor, divided, added⟩ :
      ∃ (x literal t : TermId) (s : Store), s.size ≤ 8 ∧ s.Literal (.int (-7)) literal ∧
        s.node x = ⟨.var "x", [], .int⟩ ∧ ∃ y two q, s.node y = ⟨.var "y", [], .int⟩ ∧
        s.Literal (.int 2) two ∧ s.Built .intDiv [x, two] .int q ∧ s.Built .add [q, y] .int t :=
    ⟨_, _, _, _, quotient_built .initial⟩
  have var_x : s.op x = .var "x" := congrArg Node.op node_x
  have var_y : s.op y = .var "y" := congrArg Node.op node_y
  have sort_x : s.sortOf x = .int := congrArg Node.sort node_x
  have sort_y : s.sortOf y = .int := congrArg Node.sort node_y
  have different : y ≠ x := by
    rintro rfl
    rw [var_x] at var_y
    simp at var_y
  have valued := (valued_empty s).insert var_x known sort_x.symm
  have unassigned : (({} : Model).insert x literal).get? y = none := by
    rw [get?_insert, if_neg different, get?_empty]
  have value_x : (({} : Model).insert x literal).completed s x = some (.int (-7)) := by
    rw [completed, get?_insert, if_pos rfl]
    exact known.evaluate _
  have value_y : (({} : Model).insert x literal).completed s y = some (.int 0) := by
    rw [completed, unassigned, sort_y]
    rfl
  have scalar_q : s.IsScalar q := by
    refine .of_built divided (by simp [sort_x, divisor.sort]; rfl) ?_
    simpa using ⟨.constant node_x rfl, divisor.isScalar⟩
  have scalar : s.IsScalar t := by
    refine .of_built added (by simp [divided.sort_eq, sort_y]; rfl) ?_
    simpa using ⟨scalar_q, .constant node_y rfl⟩
  have int_x : s.evaluate (({} : Model).insert x literal |>.completed s) x = some (.int (-7)) := by
    rw [Store.evaluate_var var_x, value_x, sort_x]
    rfl
  have int_y : s.evaluate (({} : Model).insert x literal |>.completed s) y = some (.int 0) := by
    rw [Store.evaluate_var var_y, value_y, sort_y]
    rfl
  have value_q := divided.evaluate (.cons int_x (.cons (divisor.evaluate _) .nil)) rfl rfl
  have value := added.evaluate (.cons value_q (.cons int_y .nil)) rfl rfl
  have small : s.size ≤ 2 ^ 32 := size.trans (by norm_num)
  obtain ⟨v, found, _, evaluated⟩ := eval_literal scalar valued (scalar.divisorsNonzero value) small
  obtain rfl := Option.some.inj (found.symm.trans value)
  refine ⟨_, s, x, y, two, q, t, added.view, divided.view, divisor, value_x, unassigned, ?_⟩
  exact evaluated.imp fun o after _ ⟨u, done, unique⟩ => ⟨u, done, (unique u).mpr rfl⟩

end Model

end Stratagem
