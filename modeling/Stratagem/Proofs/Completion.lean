import Stratagem.Proofs.Evaluation

/-!
# Free constants and completion

The constants that are listed as free in a term are free, and none is listed twice. All are listed
if the subterms that occur under equally many bound names have the same free constants bound there:
the search tells the places where a shared subterm occurs apart by the number of bound names only.
Evaluation with completion then gives every free constant without a value the default of its sort.
-/
namespace Stratagem

open Terms

namespace Store

variable {s : Store} {t u : TermId} {bound : List String}

/-- What occurs in an application is the application or occurs in an argument. -/
theorem occursUnder_iff_of_view {op : Op} {args : List TermId} (view : s.view t = (op, args))
    (compound : ∀ name, op ≠ .var name) :
    s.OccursUnder u bound t ↔ u = t ∧ bound = [] ∨
      ∃ a ∈ args, ∃ inner, s.OccursUnder u inner a ∧ bound = inner ++ op.bound.reverse := by
  obtain ⟨rfl, rfl⟩ := view_eq_iff.mp view
  constructor
  · exact fun occurs => occurs.cases.imp_right fun below => below.2
  · rintro (⟨rfl, rfl⟩ | ⟨a, member, inner, below, rfl⟩)
    · exact .here
    · exact .there compound member below

/-- Only a constant itself occurs in a constant. -/
theorem occursUnder_iff_of_var {name : String} (var : s.op t = .var name) :
    s.OccursUnder u bound t ↔ u = t ∧ bound = [] := by
  constructor
  · exact fun occurs => occurs.cases.resolve_right fun below => below.1 name var
  · rintro ⟨rfl, rfl⟩
    exact .here

/-- A term binds alike if the number of bound names determines the names. -/
theorem bindsAlike_of_length (names : ℕ → List String)
    (determined : ∀ u bound, s.OccursUnder u bound t → bound = names bound.length) :
    s.BindsAlike t := by
  intro u bound bound' first second same c name _ _ among
  rw [determined u bound first, same, ← determined u bound' second] at among
  exact among

end Store

namespace Model

variable {s : Store} {map : Substitution} {constants : List TermId}

/-- Completion keeps the values that there are, gives to each listed constant without one the
literal of the default of its sort, and gives nothing else a value. -/
structure Completes (s : Store) (map : Substitution) (constants : List TermId)
    (found : Substitution) (after : Store) : Prop where
  /-- Values that there are stay. -/
  keeps : ∀ c u : TermId, map[c]? = some u → found[c]? = some u
  /-- Constants without a value get the default of their sort. -/
  defaults : ∀ c ∈ constants, map[c]? = none → ∀ v, (s.sortOf c).default? = some v →
    ∃ u, found[c]? = some u ∧ after.Literal v u
  /-- Nothing else gets a value. -/
  only : ∀ c u : TermId, found[c]? = some u → map[c]? = some u ∨ c ∈ constants

/-- There is no default literal for a sort without a default value. -/
theorem defaultOf_of_none {sort : TermSort} (absent : sort.default? = none) :
    defaultOf sort = pure none := by
  cases sort <;> first | rfl | cases absent

/-- Giving defaults completes the values that there are. -/
theorem complete_completes (inside : ∀ c ∈ constants, c < s.size) :
    (complete map constants).Ensures s (Completes s map constants) := by
  induction constants generalizing s map with
  | nil => exact ensures_pure ⟨fun _ _ known => known, nofun, fun _ _ known => .inl known⟩
  | cons c rest tail =>
    obtain ⟨here, later⟩ := List.forall_mem_cons.mp inside
    unfold complete
    split
    · next present =>
      refine (tail later).imp fun found after _ done => ⟨done.keeps, ?_, fun k u known => ?_⟩
      · intro k member absent
        obtain rfl | member := List.mem_cons.mp member
        · rw [Std.HashMap.contains_eq_isSome_getElem?, absent] at present
          cases present
        · exact done.defaults k member absent
      · exact (done.only k u known).imp_right (List.mem_cons_of_mem c)
    · next missing =>
      have absent : map[c]? = none := by
        rwa [Std.HashMap.contains_eq_isSome_getElem?, Bool.not_eq_true, Option.isSome_eq_false_iff,
          Option.isNone_iff_eq_none] at missing
      refine ensures_read_bind ?_
      cases default : (s.sortOf c).default? with
      | none =>
        rw [defaultOf_of_none default, pure_bind]
        refine (tail later).imp fun found after _ done => ⟨done.keeps, ?_, fun k u known => ?_⟩
        · intro k member absent v known
          obtain rfl | member := List.mem_cons.mp member
          · rw [default] at known
            cases known
          · exact done.defaults k member absent v known
        · exact (done.only k u known).imp_right (List.mem_cons_of_mem c)
      | some v =>
        refine ensures_bind (defaultOf_literal default) ?_
        rintro _ middle grown ⟨⟨u, rfl, literal⟩, _⟩
        refine (tail fun k member => grown.lt_size (later k member)).imp fun found after more done =>
          ⟨fun k w known => done.keeps k w ?_, fun k member missing => ?_, fun k w known => ?_⟩
        · rw [Std.HashMap.getElem?_insert, if_neg, known]
          intro same
          rw [← eq_of_beq same, absent] at known
          cases known
        · by_cases same : k = c
          · subst same
            intro w known
            obtain rfl := Option.some.inj (default.symm.trans known)
            exact ⟨u, done.keeps k u Std.HashMap.getElem?_insert_self, literal.mono more⟩
          · have member := (List.mem_cons.mp member).resolve_left same
            rw [← grown.sortOf_eq (later k member)]
            refine done.defaults k member ?_
            rw [Std.HashMap.getElem?_insert, if_neg (by simpa using Ne.symm same), missing]
        · obtain early | member := done.only k w known
          · rw [Std.HashMap.getElem?_insert] at early
            split at early
            · next same => exact .inr (List.mem_cons.mpr (.inl (eq_of_beq same).symm))
            · exact .inl early
          · exact .inr (List.mem_cons_of_mem c member)

/-- The listed constants are free and stand there once. In a term that binds alike they are all the
free constants, and evaluation with completion puts values in the place of constants among which
every free constant without a value of its own has the literal of the default of its sort. -/
theorem eval_completes (m : Model) (s : Store) (t : TermId) :
    (s.freeConstants t).Nodup ∧ (∀ c ∈ s.freeConstants t, s.Free c t) ∧
      (s.BindsAlike t → (∀ c, c ∈ s.freeConstants t ↔ s.Free c t) ∧
        ∃ (map : Substitution) (middle : Store), s.Extends middle ∧
          (∀ c u : TermId, (Std.HashMap.ofList m.entries)[c]? = some u → map[c]? = some u) ∧
          (∀ c, s.Free c t → (Std.HashMap.ofList m.entries)[c]? = none →
            ∀ v, (s.sortOf c).default? = some v → ∃ u, map[c]? = some u ∧ middle.Literal v u) ∧
          (m.eval t true).run s = (substitute t map >>= simplify).run middle) := by
  refine ⟨s.nodup_freeConstants t, fun c => Store.free_of_mem_freeConstants, fun alike => ?_⟩
  have inside : ∀ c ∈ s.freeConstants t, c < s.size := fun c member =>
    have ⟨_, _, var⟩ := Store.occurs_of_mem_freeConstants member
    Store.lt_size_of_var var
  have completed : (complete (.ofList m.entries) (s.freeConstants t)).Ensures s _ :=
    complete_completes inside
  refine ⟨fun c => ⟨Store.free_of_mem_freeConstants, Store.mem_freeConstants_of_free alike⟩,
    _, _, (complete (.ofList m.entries) (s.freeConstants t)).grows s, completed.keeps, ?_, rfl⟩
  exact fun c free => completed.defaults c (Store.mem_freeConstants_of_free alike free)

section Case

variable {vars : List Binder} {p q body e e' t : TermId}

/-- The conjunction of two quantifiers over a common body, the first over one of its two constants;
the constants and the conjunction. -/
def sharedBody (vars : List Binder) : Terms (TermId × TermId × TermId) := do
  let p ← mkVar "p" .bool
  let q ← mkVar "q" .bool
  let body ← mkApp .or [p, q]
  let e ← mkExists [⟨"p", .bool⟩] body
  let e' ← mkExists vars body
  return (p, q, ← mkApp .and [e, e'])

/-- The terms of such a conjunction. -/
structure Shared (s : Store) (vars : List Binder) (p q body e e' t : TermId) : Prop where
  /-- The constant that the first quantifier binds. -/
  inner : s.op p = .var "p"
  /-- The other constant. -/
  outer : s.op q = .var "q"
  /-- The common body. -/
  common : s.view body = (.or, [p, q])
  /-- The first quantifier. -/
  first : s.view e = (.existential [⟨"p", .bool⟩], [body])
  /-- The second quantifier. -/
  second : s.view e' = (.existential vars, [body])
  /-- The conjunction. -/
  whole : s.view t = (.and, [e, e'])

/-- The conjunction is built of these terms. -/
theorem sharedBody_ensures (vars : List Binder) : (sharedBody vars).Ensures .initial
    fun found s => ∃ body e e', Shared s vars found.1 found.2.1 body e e' found.2.2 := by
  have quantified (vars : List Binder) {body : TermId} {s : Store} (inside : body < s.size) :
      (mkExists vars body).Ensures s fun t after =>
        t < after.size ∧ after.node t = ⟨.existential vars, [body], .bool⟩ :=
    ensures_bind_of_all fun _ _ grown => intern_node (by simpa using grown.lt_size inside)
  refine ensures_bind (mkVar_node "p" .bool) ?_
  rintro p s₁ - ⟨inside_p, node_p⟩
  refine ensures_bind (mkVar_node "q" .bool) ?_
  rintro q s₂ grown₂ ⟨inside_q, node_q⟩
  refine ensures_bind (mkApp_node (by simpa using ⟨grown₂.lt_size inside_p, inside_q⟩)) ?_
  rintro body s₃ grown₃ ⟨inside_body, node_body⟩
  refine ensures_bind (quantified _ inside_body) ?_
  rintro e s₄ grown₄ ⟨inside_e, node_e⟩
  refine ensures_bind (quantified vars (grown₄.lt_size inside_body)) ?_
  rintro e' s₅ grown₅ ⟨inside_e', node_e'⟩
  refine ensures_bind (mkApp_node (by simpa using ⟨grown₅.lt_size inside_e, inside_e'⟩)) ?_
  rintro t s grown ⟨inside, node⟩
  have late := grown₅.trans grown
  have later := grown₄.trans late
  have latest := grown₃.trans later
  have view {u : TermId} {n : Node} (same : s.node u = n) : s.view u = (n.op, n.args) := by
    rw [Store.view, same]
  exact ensures_pure ⟨body, e, e',
    { inner := congrArg Node.op (((grown₂.trans latest).node_eq inside_p).trans node_p)
      outer := congrArg Node.op ((latest.node_eq inside_q).trans node_q)
      common := view ((later.node_eq inside_body).trans node_body)
      first := view ((late.node_eq inside_e).trans node_e)
      second := view ((grown.node_eq inside_e').trans node_e')
      whole := view node }⟩

namespace Shared

/-- Where the body occurs, its constants do. -/
theorem common_occurs (known : Shared s vars p q body e e' t) {u : TermId} (member : u ∈ [p, q]) :
    s.OccursUnder u [] body :=
  (Store.occursUnder_iff_of_view known.common (by simp)).mpr (.inr ⟨u, member, [], .here, rfl⟩)

/-- What occurs in the body is not bound there. -/
theorem bound_nil (known : Shared s vars p q body e e' t) {u : TermId} {bound : List String}
    (occurs : s.OccursUnder u bound body) : bound = [] := by
  obtain ⟨rfl, rfl⟩ | ⟨a, member, inner, below, rfl⟩ :=
    (Store.occursUnder_iff_of_view known.common (by simp)).mp occurs
  · rfl
  · have var : ∃ name, s.op a = .var name := by
      obtain rfl | rfl : a = p ∨ a = q := by simpa using member
      · exact ⟨_, known.inner⟩
      · exact ⟨_, known.outer⟩
    obtain ⟨name, var⟩ := var
    rw [((Store.occursUnder_iff_of_var var).mp below).2]
    rfl

/-- Two lists of names are bound in such a conjunction. -/
theorem bound_cases (known : Shared s vars p q body e e' t) {u : TermId} {bound : List String}
    (occurs : s.OccursUnder u bound t) :
    bound = [] ∨ bound = ["p"] ∨ bound = (vars.map (·.name)).reverse := by
  have under {e : TermId} {vars : List Binder} {bound : List String}
      (view : s.view e = (.existential vars, [body])) (occurs : s.OccursUnder u bound e) :
      bound = [] ∨ bound = (vars.map (·.name)).reverse := by
    obtain ⟨_, none⟩ | ⟨a, member, inner, below, rfl⟩ :=
      (Store.occursUnder_iff_of_view view (by simp)).mp occurs
    · exact .inl none
    · obtain rfl := List.mem_singleton.mp member
      rw [known.bound_nil below]
      exact .inr rfl
  obtain ⟨_, none⟩ | ⟨a, member, inner, below, rfl⟩ :=
    (Store.occursUnder_iff_of_view known.whole (by simp)).mp occurs
  · exact .inl none
  · have nothing : inner ++ (Op.and.bound).reverse = inner := List.append_nil inner
    rw [nothing]
    obtain rfl | rfl : a = e ∨ a = e' := by simpa using member
    · exact (under known.first below).imp_right .inl
    · exact (under known.second below).imp_right .inr

/-- Outside of the first quantifier, the constant that it binds is free unless the second one binds
it too. -/
theorem inner_free (known : Shared s vars p q body e e' t) (unbound : "p" ∉ vars.map (·.name)) :
    s.Free p t := by
  refine ⟨"p", _, known.inner, (Store.occursUnder_iff_of_view known.whole (by simp)).mpr
    (.inr ⟨e', by simp, _, (Store.occursUnder_iff_of_view known.second (by simp)).mpr
      (.inr ⟨body, List.mem_singleton_self body, [], known.common_occurs (by simp), rfl⟩), rfl⟩), ?_⟩
  simpa [Op.bound, Op.binders?] using unbound

/-- In the first quantifier, the other constant is free. -/
theorem outer_free (known : Shared s vars p q body e e' t) : s.Free q t := by
  refine ⟨"q", _, known.outer, (Store.occursUnder_iff_of_view known.whole (by simp)).mpr
    (.inr ⟨e, by simp, _, (Store.occursUnder_iff_of_view known.first (by simp)).mpr
      (.inr ⟨body, List.mem_singleton_self body, [], known.common_occurs (by simp), rfl⟩), rfl⟩), ?_⟩
  simp [Op.bound, Op.binders?]

end Shared

/-- If the quantifiers bind different numbers of names, both constants are listed. -/
theorem eval_completes_case : ∃ (s : Store) (p q body e e' t : TermId),
    Shared s [⟨"q", .bool⟩, ⟨"r", .bool⟩] p q body e e' t ∧ s.BindsAlike t ∧
      p ∈ s.freeConstants t ∧ q ∈ s.freeConstants t := by
  obtain ⟨p, q, t, s, body, e, e', known⟩ :
      ∃ p q t s body e e', Shared s [⟨"q", .bool⟩, ⟨"r", .bool⟩] p q body e e' t :=
    ⟨_, _, _, _, sharedBody_ensures _⟩
  have alike : s.BindsAlike t := by
    refine Store.bindsAlike_of_length (fun n => if n = 0 then [] else if n = 1 then ["p"] else
      ["r", "q"]) fun u bound occurs => ?_
    obtain rfl | rfl | rfl := known.bound_cases occurs <;> rfl
  obtain ⟨_, _, complete⟩ := eval_completes {} s t
  obtain ⟨listed, _⟩ := complete alike
  exact ⟨s, p, q, body, e, e', t, known, alike, (listed p).mpr (known.inner_free (by simp)),
    (listed q).mpr known.outer_free⟩

end Case

end Model
end Stratagem
