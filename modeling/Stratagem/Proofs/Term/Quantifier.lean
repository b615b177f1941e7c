import Stratagem.Proofs.Term.Substitution
import Stratagem.Proofs.Term.Unfolding

/-!
# Substitution under quantifiers

Terms with quantifiers, read in any domain: an operator is any function of values, a quantifier goes
over the environments that differ in the names it binds. Substituting gives a term that has in every
environment the value of the term where each replaced constant has the value of its image, unless a
name that is free in an image is bound where the constant is replaced. Substitution does not rename
bound variables, so the condition cannot be left out.
-/
namespace Stratagem

open Store (Extends)

/-- The key of an operator binds the same variables. -/
@[simp] theorem Op.binders?_key (op : Op) : op.key.binders? = op.binders? := by
  cases op <;> rfl

/-- The key of an operator is a constant if the operator is. -/
theorem Op.key_eq_var {op : Op} {name : String} : op.key = .var name ↔ op = .var name := by
  cases op <;> simp [Op.key]

/-- The key of an operator has its own sort if the operator has. -/
@[simp] theorem Op.hasOwnSort_key (op : Op) : op.key.hasOwnSort = op.hasOwnSort := by
  cases op <;> rfl

/-- A domain of values in which terms are read. -/
structure Domain where
  /-- The values. -/
  Val : Type
  /-- The values of a sort, over which quantifiers go. -/
  range : TermSort → Set Val
  /-- The values that count as true. -/
  truth : Val → Prop
  /-- The value of a proposition. -/
  ofProp : Prop → Val
  /-- The meaning of an operator, given its sort if that is not determined by the arguments. -/
  apply : Op → Option TermSort → List Val → Val

namespace Domain

variable (D : Domain)

/-- A value for every constant; names of different sorts are different constants. -/
abbrev Environment := String → TermSort → D.Val

variable {D} {vars : List Binder} {inner outer other : D.Environment}

/-- The environments under a quantifier: the bound names have values of their sorts, and all other
names keep theirs. -/
structure Scope (vars : List Binder) (inner outer : D.Environment) : Prop where
  /-- Other names keep their values. -/
  outside : ∀ name sort, name ∉ vars.map (·.name) → inner name sort = outer name sort
  /-- Bound names have values of their sorts. -/
  inside : ∀ b ∈ vars, inner b.name b.sort ∈ D.range b.sort

/-- The values of bound names, and those of another environment elsewhere. -/
def graft (vars : List Binder) (inner outer : D.Environment) : D.Environment := fun name sort =>
  if name ∈ vars.map (·.name) then inner name sort else outer name sort

/-- The values of bound names may be taken to another environment. -/
theorem Scope.graft (known : Scope vars inner outer) (other : D.Environment) :
    Scope vars (graft vars inner other) other where
  outside _ _ free := if_neg free
  inside b member := by
    rw [Domain.graft, if_pos (List.mem_map_of_mem member)]
    exact known.inside b member

end Domain

namespace Tree

variable {D : Domain} {env env' : D.Environment} {op : Op} {args args' : List Tree}
  {sort sort' : TermSort} {name : String} {vars : List Binder} {t : Tree}

/-- Induction on a tree: a property that passes from the members to the whole holds of all trees. -/
@[elab_as_elim]
theorem induction {motive : Tree → Prop}
    (node : ∀ op args sort, (∀ a ∈ args, motive a) → motive (node op args sort)) (t : Tree) :
    motive t := by
  match t with
  | .node op args sort => exact node op args sort fun a member => induction node a
termination_by sizeOf t
decreasing_by
  have smaller := List.sizeOf_lt_of_mem member
  simp only [Tree.node.sizeOf_spec]
  omega

/-- The value of a tree in an environment. -/
def meaning (D : Domain) : D.Environment → Tree → D.Val
  | env, node (.var name) [] sort => env name sort
  | env, node (.universal vars) args _ => D.ofProp (∀ inner : D.Environment,
      Domain.Scope vars inner env → ∀ a : { a // a ∈ args }, D.truth (a.1.meaning D inner))
  | env, node (.existential vars) args _ => D.ofProp (∃ inner : D.Environment,
      Domain.Scope vars inner env ∧ ∀ a : { a // a ∈ args }, D.truth (a.1.meaning D inner))
  | env, node op args sort => D.apply op (if op.hasOwnSort then some sort else none)
      (args.attach.map fun a => a.1.meaning D env)
decreasing_by
  all_goals
    have smaller := List.sizeOf_lt_of_mem a.2
    simp only [node.sizeOf_spec]
    omega

/-- The value of a constant. -/
theorem meaning_var : meaning D env (node (.var name) [] sort) = env name sort := by
  rw [meaning]

/-- The value of the application of an operator that binds nothing. -/
theorem meaning_apply (unbound : op.binders? = none) (other : ∀ name, op = .var name → args ≠ []) :
    meaning D env (node op args sort) =
      D.apply op (if op.hasOwnSort then some sort else none) (args.map (meaning D env)) := by
  rw [← List.attach_map_val (f := meaning D env), meaning.eq_def]
  split
  · next same =>
    obtain ⟨rfl, rfl, rfl⟩ := same
    exact absurd rfl (other _ rfl)
  · next same =>
    obtain ⟨rfl, rfl, rfl⟩ := same
    cases unbound
  · next same =>
    obtain ⟨rfl, rfl, rfl⟩ := same
    cases unbound
  · next same =>
    obtain ⟨rfl, rfl, rfl⟩ := same
    rfl

/-- Quantifiers of one kind have the same value if every environment under one of them has a
counterpart under the other in which the bodies have the same values. -/
theorem meaning_quantifier (binds : op.binders? = some vars)
    (there : ∀ inner, Domain.Scope vars inner env → ∃ inner', Domain.Scope vars inner' env' ∧
      args.map (meaning D inner) = args'.map (meaning D inner'))
    (back : ∀ inner', Domain.Scope vars inner' env' → ∃ inner, Domain.Scope vars inner env ∧
      args.map (meaning D inner) = args'.map (meaning D inner')) :
    meaning D env (node op args sort) = meaning D env' (node op args' sort') := by
  have truth : ∀ {args : List Tree} {inner : D.Environment},
      (∀ a : { a // a ∈ args }, D.truth (a.1.meaning D inner)) ↔
        ∀ v ∈ args.map (meaning D inner), D.truth v := by
    intro args inner
    rw [Subtype.forall, List.forall_mem_map]
  unfold Op.binders? at binds
  split at binds
  · obtain rfl := Option.some.inj binds
    rw [meaning, meaning]
    simp only [truth]
    refine congrArg D.ofProp (propext ⟨fun all inner' known => ?_, fun all inner known => ?_⟩)
    · obtain ⟨inner, scope, same⟩ := back inner' known
      exact same ▸ all inner scope
    · obtain ⟨inner', scope, same⟩ := there inner known
      exact same ▸ all inner' scope
  · obtain rfl := Option.some.inj binds
    rw [meaning, meaning]
    simp only [truth]
    refine congrArg D.ofProp (propext ⟨?_, ?_⟩)
    · rintro ⟨inner, known, all⟩
      obtain ⟨inner', scope, same⟩ := there inner known
      exact ⟨inner', scope, same ▸ all⟩
    · rintro ⟨inner', known, all⟩
      obtain ⟨inner, scope, same⟩ := back inner' known
      exact ⟨inner, scope, same ▸ all⟩
  · cases binds

/-- A constant occurs free in a tree, at a place where a list of names is bound. -/
inductive FreeUnder (name : String) (sort : TermSort) : List String → Tree → Prop
  /-- A constant by itself. -/
  | here : FreeUnder name sort [] (node (.var name) [] sort)
  /-- A constant that is free in a member and that the head does not bind. -/
  | there {op : Op} {args : List Tree} {whole : TermSort} {a : Tree} {bound : List String}
    (member : a ∈ args) (below : FreeUnder name sort bound a) (unbound : name ∉ op.bound) :
    FreeUnder name sort (op.bound ++ bound) (node op args whole)

/-- In a constant, nothing is free but the constant itself. -/
theorem FreeUnder.of_var {other : String} {bound : List String}
    (free : FreeUnder name sort bound (node (.var other) [] sort')) : name = other ∧ bound = [] := by
  cases free with
  | here => exact ⟨rfl, rfl⟩
  | there member => cases member

/-- The names bound by an operator that binds variables. -/
theorem bound_of_binders (binds : op.binders? = some vars) :
    op.bound = vars.map (·.name) := by
  rw [Op.bound, binds]
  rfl

/-- The value of a tree depends on the values of its free constants only. -/
theorem meaning_congr (t : Tree) : ∀ {env env' : D.Environment},
    (∀ name sort bound, FreeUnder name sort bound t → env name sort = env' name sort) →
    t.meaning D env = t.meaning D env' := by
  induction t using Tree.induction with
  | node op args sort each =>
    intro env env' same
    cases binds : op.binders? with
    | some vars =>
      have names := bound_of_binders binds
      have grafted : ∀ {env env' : D.Environment}, (∀ name kind bound,
          FreeUnder name kind bound (node op args sort) → env name kind = env' name kind) →
          ∀ inner, Domain.Scope vars inner env →
          args.map (meaning D inner) = args.map (meaning D (Domain.graft vars inner env')) := by
        intro env env' same inner scope
        refine List.map_congr_left fun a member => each a member fun name sort bound below => ?_
        unfold Domain.graft
        split
        · rfl
        · next unbound =>
          rw [scope.outside name sort unbound]
          exact same name sort _ (.there member below (names ▸ unbound))
      refine meaning_quantifier binds (fun inner scope => ?_) fun inner' scope => ?_
      · exact ⟨_, scope.graft env', grafted same inner scope⟩
      · exact ⟨_, scope.graft env,
          (grafted (fun name kind bound free => (same name kind bound free).symm) inner' scope).symm⟩
    | none =>
      by_cases constant : ∃ name, op = .var name ∧ args = []
      · obtain ⟨name, rfl, rfl⟩ := constant
        rw [meaning_var, meaning_var]
        exact same name sort [] .here
      · have other : ∀ name, op = .var name → args ≠ [] := fun name head empty =>
          constant ⟨name, head, empty⟩
        rw [meaning_apply binds other, meaning_apply binds other]
        congr 1
        refine List.map_congr_left fun a member => each a member fun name sort bound below => ?_
        exact same name sort _ (.there member below (by simp [Op.bound, binds]))

end Tree

/-- Images of constants. -/
abbrev Images := String → TermSort → Option Tree

namespace Images

variable {D : Domain} {images : Images} {op : Op} {args args' : List Tree} {sort sort' : TermSort}
  {vars : List Binder} {t a : Tree} {env inner inner' : D.Environment} {name : String}

/-- The environment in which each constant with an image has the value of the image. -/
def update (images : Images) (env : D.Environment) : D.Environment := fun name sort =>
  match images name sort with
  | some image => image.meaning D env
  | none => env name sort

/-- A constant with an image has the value of the image. -/
theorem update_some {image : Tree} (found : images name sort = some image) :
    images.update env name sort = image.meaning D env := by
  rw [update, found]

/-- A constant without an image keeps its value. -/
theorem update_none (missing : images name sort = none) :
    images.update env name sort = env name sort := by
  rw [update, missing]

/-- No name that is free in an image is bound where the constant occurs free. -/
def Avoids (images : Images) (t : Tree) : Prop :=
  ∀ name sort bound image, Tree.FreeUnder name sort bound t → images name sort = some image →
    ∀ other sort' bound', Tree.FreeUnder other sort' bound' image → other ∉ bound

/-- The images of constants that are not bound. -/
def outside (images : Images) (vars : List Binder) : Images := fun name sort =>
  if name ∈ vars.map (·.name) then none else images name sort

/-- Images that avoid what a tree binds avoid what a member of it binds. -/
theorem Avoids.member (avoids : images.Avoids (.node op args sort)) (unbound : op.binders? = none)
    (member : a ∈ args) : images.Avoids a := by
  intro name kind bound image free found other kind' bound' below
  have nothing : op.bound = [] := by
    rw [Op.bound, unbound]
    rfl
  have whole : Tree.FreeUnder name kind (op.bound ++ bound) (.node op args sort) :=
    .there member free (by simp [nothing])
  rw [nothing, List.nil_append] at whole
  exact avoids name kind bound image whole found other kind' bound' below

/-- Images that avoid what a quantifier and its body bind avoid, as far as they still apply, what
the body binds. -/
theorem Avoids.body (avoids : images.Avoids (.node op args sort)) (binds : op.binders? = some vars)
    (member : a ∈ args) : (images.outside vars).Avoids a := by
  intro name kind bound image free found other kind' bound' below among
  unfold outside at found
  split at found
  · cases found
  · next unbound =>
    rw [← Tree.bound_of_binders binds] at unbound
    exact avoids name kind _ image (.there member free unbound) found other kind' bound' below
      (List.mem_append_right _ among)

/-- Below a quantifier, the images have the values that they have outside: nothing that is free in
them is bound there. -/
theorem meaning_outside (avoids : images.Avoids (.node op args sort))
    (binds : op.binders? = some vars) (member : a ∈ args) (scope : Domain.Scope vars inner env)
    (scope' : Domain.Scope vars inner' (images.update env))
    (same : ∀ name sort, name ∈ vars.map (·.name) → inner name sort = inner' name sort) :
    a.meaning D ((images.outside vars).update inner) = a.meaning D inner' := by
  refine Tree.meaning_congr a fun name kind bound free => ?_
  by_cases shadowed : name ∈ vars.map (·.name)
  · rw [update_none (by rw [outside, if_pos shadowed]), same name kind shadowed]
  · have apply : images.outside vars name kind = images name kind := if_neg shadowed
    rw [scope'.outside name kind shadowed]
    cases found : images name kind with
    | none => rw [update_none (apply.trans found), update_none found, scope.outside _ _ shadowed]
    | some image =>
      rw [update_some (apply.trans found), update_some found]
      refine Tree.meaning_congr image fun other kind' bound' below => scope.outside other kind' ?_
      rw [← Tree.bound_of_binders binds] at shadowed ⊢
      exact fun among => avoids name kind _ image (.there member free shadowed) found other kind'
        bound' below (List.mem_append_left _ among)

/-- A quantifier whose body is substituted has the value of the quantifier in the environment of
the images. -/
theorem meaning_quantifier (avoids : images.Avoids (.node op args sort))
    (binds : op.binders? = some vars)
    (bodies : List.Forall₂ (fun a' a => ∀ env : D.Environment,
      a'.meaning D env = a.meaning D ((images.outside vars).update env)) args' args) :
    (Tree.node op args' sort').meaning D env =
      (Tree.node op args sort).meaning D (images.update env) := by
  have agree : ∀ {inner inner' : D.Environment}, Domain.Scope vars inner env →
      Domain.Scope vars inner' (images.update env) →
      (∀ name sort, name ∈ vars.map (·.name) → inner name sort = inner' name sort) →
      args'.map (Tree.meaning D inner) = args.map (Tree.meaning D inner') := by
    intro inner inner' scope scope' same
    rw [← List.forall₂_eq_eq_eq, List.forall₂_map_left_iff, List.forall₂_map_right_iff]
    refine List.forall₂_iff_get.mpr ⟨bodies.length_eq, fun i h h' => ?_⟩
    rw [(List.forall₂_iff_get.mp bodies).2 i h h' inner]
    exact meaning_outside avoids binds (List.get_mem ..) scope scope' same
  refine Tree.meaning_quantifier binds (fun inner scope => ?_) fun inner' scope' => ?_
  · refine ⟨_, scope.graft (images.update env), agree scope (scope.graft _) fun _ _ among => ?_⟩
    rw [Domain.graft, if_pos among]
  · refine ⟨_, scope'.graft env, agree (scope'.graft _) scope' fun _ _ among => ?_⟩
    rw [Domain.graft, if_pos among]

end Images

namespace Store

variable {D : Domain} {s after : Store} {map : Substitution} {t u x : TermId} {name : String}
  {sort : TermSort} {vars : List Binder}

/-- The images that a substitution has for the constants of a store. -/
def images (s : Store) (map : Substitution) : Images := fun name sort =>
  (s.table[(⟨.var name, [], sort⟩ : Node)]?.bind (map[·]?)).map s.tree

/-- The image of a constant is that of its term. -/
theorem images_eq (constant : s.nodes[x]? = some ⟨.var name, [], sort⟩) :
    s.images map name sort = map[x]?.map s.tree := by
  rw [images, (s.exact _ x).mpr constant, Option.bind_some]

/-- A substitution of constants of a store by terms of the store. -/
structure Renames (s : Store) (map : Substitution) : Prop where
  /-- Constants are replaced. -/
  constant : ∀ x image : TermId, map[x]? = some image →
    ∃ name sort, s.nodes[x]? = some ⟨.var name, [], sort⟩
  /-- Their images are there. -/
  inside : ∀ x image : TermId, map[x]? = some image → image < s.size

/-- A substitution of constants stays one when the store grows. -/
theorem Renames.mono (renames : s.Renames map) (grown : s.Extends after) : after.Renames map where
  constant x image found := by
    obtain ⟨name, sort, constant⟩ := renames.constant x image found
    exact ⟨name, sort, grown x _ constant⟩
  inside x image found := grown.lt_size (renames.inside x image found)

/-- The images of constants stay when the store grows. -/
theorem Renames.images_eq (renames : s.Renames map) (grown : s.Extends after) :
    after.images map = s.images map := by
  funext name sort
  cases found : after.table[(⟨.var name, [], sort⟩ : Node)]? with
  | none =>
    have before : s.table[(⟨.var name, [], sort⟩ : Node)]? = none := by
      by_contra there
      obtain ⟨x, there⟩ := Option.ne_none_iff_exists'.mp there
      have later := (after.exact _ x).mpr (grown x _ ((s.exact _ x).mp there))
      rw [found] at later
      cases later
    rw [images, images, found, before]
    rfl
  | some x =>
    have constant := (after.exact _ x).mp found
    cases replaced : map[x]? with
    | none =>
      rw [Store.images_eq constant, replaced, images]
      cases before : s.table[(⟨.var name, [], sort⟩ : Node)]? with
      | none => rfl
      | some y =>
        have later := (after.exact _ y).mpr (grown y _ ((s.exact _ y).mp before))
        rw [found] at later
        obtain rfl := Option.some.inj later
        rw [Option.bind_some, replaced]
        rfl
    | some image =>
      obtain ⟨other, kind, before⟩ := renames.constant x image replaced
      have same := (grown x _ before).symm.trans constant
      obtain ⟨rfl, rfl⟩ : other = name ∧ kind = sort := by simpa using same
      rw [Store.images_eq constant, Store.images_eq before, replaced, Option.map_some,
        Option.map_some, grown.tree_eq (renames.inside x image replaced)]

/-- The entry of a constant that is not bound stays under a quantifier, and the others go. -/
theorem getElem?_unshadowed (constant : s.nodes[x]? = some ⟨.var name, [], sort⟩) :
    (Terms.unshadowed s vars map)[x]? =
      if name ∈ vars.map (·.name) then none else map[x]? := by
  have named : s.varName? x = some name := by
    rw [varName?, op, (node_of_getElem? constant).2]
  rw [Terms.unshadowed, Std.HashMap.getElem?_filter', named]
  dsimp only
  by_cases bound : name ∈ vars.map (·.name)
  · rw [if_pos bound]
    obtain ⟨b, member, same⟩ := List.mem_map.mp bound
    have any : vars.any (·.name == name) = true :=
      List.any_eq_true.mpr ⟨b, member, beq_iff_eq.mpr same⟩
    cases map[x]? <;> simp [any]
  · rw [if_neg bound]
    have any : vars.any (·.name == name) = false := by
      rw [List.any_eq_false]
      exact fun b member same => bound (List.mem_map.mpr ⟨b, member, eq_of_beq same⟩)
    cases map[x]? <;> simp [any]

/-- What is left of a substitution under a quantifier is one of constants. -/
theorem Renames.unshadowed (renames : s.Renames map) (vars : List Binder) :
    s.Renames (Terms.unshadowed s vars map) := by
  have kept : ∀ x image : TermId, (Terms.unshadowed s vars map)[x]? = some image →
      map[x]? = some image := by
    intro x image found
    rw [Terms.unshadowed, Std.HashMap.getElem?_filter'] at found
    exact Option.eq_some_of_filter_eq_some found
  exact ⟨fun x image found => renames.constant x image (kept x image found),
    fun x image found => renames.inside x image (kept x image found)⟩

/-- Under a quantifier, the constants that are not bound have their images. -/
theorem images_unshadowed (s : Store) (vars : List Binder) (map : Substitution) :
    s.images (Terms.unshadowed s vars map) = (s.images map).outside vars := by
  funext name sort
  cases found : s.table[(⟨.var name, [], sort⟩ : Node)]? with
  | none =>
    rw [Images.outside, images, images, found]
    split <;> rfl
  | some x =>
    have constant := (s.exact _ x).mp found
    rw [Images.outside, images_eq constant, images_eq constant, getElem?_unshadowed constant]
    split <;> rfl

/-- A term has in every environment the value that another one has in the environment of some
images. -/
structure Substitutes (D : Domain) (images : Images) (s : Store) (u t : TermId) : Prop where
  /-- The term is there. -/
  inside : u < s.size
  /-- The other one is there. -/
  origin : t < s.size
  /-- The values are the same. -/
  same : ∀ env : D.Environment,
    (s.tree u).meaning D env = (s.tree t).meaning D (images.update env)

/-- Values stay when the store grows. -/
theorem Substitutes.mono {images : Images} (known : s.Substitutes D images u t)
    (grown : s.Extends after) : after.Substitutes D images u t where
  inside := grown.lt_size known.inside
  origin := grown.lt_size known.origin
  same env := by
    rw [grown.tree_eq known.inside, grown.tree_eq known.origin]
    exact known.same env

/-- Terms that stand for others are there. -/
theorem Substitutes.all_inside {images : Images} {terms origins : List TermId}
    (built : List.Forall₂ (s.Substitutes D images) terms origins) : ∀ a ∈ terms, a < s.size := by
  intro a member
  obtain ⟨_, _, known⟩ := exists_of_forall₂ built member
  exact known.inside

end Store

namespace Terms

variable {D : Domain} {s after : Store} {map memo : Substitution} {t u x : TermId}
  {args : List TermId} {images : Images} {vars : List Binder}

/-- The term with other arguments has the head of the term; it has its sort if the head does not
determine the sort or if the arguments are the same. -/
theorem rebuild_tree (inside : t < s.size) (there : ∀ a ∈ args, a < s.size) :
    (rebuild t args).Ensures s fun u after => u < after.size ∧
      ∃ sort, after.tree u = .node (s.op t).key (args.map s.tree) sort ∧
        ((s.op t).hasOwnSort = true ∨ args = s.args t → sort = s.sortOf t) := by
  have node : (rebuild t args).Ensures s fun u after => u < after.size ∧
      ∃ sort, after.node u = ⟨s.op t, args, sort⟩ ∧
        ((s.op t).hasOwnSort = true ∨ args = s.args t → sort = s.sortOf t) := by
    unfold rebuild
    apply ensures_read_bind
    dsimp only
    split
    · next same => exact ensures_pure ⟨inside, s.sortOf t, by rw [← same]; rfl, fun _ => rfl⟩
    · next changed =>
      split
      · exact (intern_node there).imp fun u after _ built =>
          ⟨built.1, s.sortOf t, built.2, fun _ => rfl⟩
      · next other =>
        exact (mkApp_node there).imp fun u after _ built =>
          ⟨built.1, _, built.2, fun known => (known.elim other fun same => changed same.symm).elim⟩
  refine node.imp fun u after grown known => ?_
  obtain ⟨above, sort, node, own⟩ := known
  refine ⟨above, sort, ?_, own⟩
  rw [Store.tree_eq, Store.op, Store.args, Store.sortOf, node]
  congr 1
  exact List.map_congr_left fun a member => grown.tree_eq (there a member)

/-- A term that binds nothing and is not replaced itself has its value once its arguments are
replaced. -/
theorem rebuild_substitutes (inside : t < s.size) (unbound : (s.op t).binders? = none)
    (kept : ∀ name, s.op t = .var name → s.args t = [] → images name (s.sortOf t) = none)
    (built : List.Forall₂ (s.Substitutes D images) args (s.args t)) :
    (rebuild t args).Ensures s fun u after => after.Substitutes D images u t := by
  refine (rebuild_tree inside (Store.Substitutes.all_inside built)).imp ?_
  rintro u after grown ⟨above, sort, tree, own⟩
  refine ⟨above, grown.lt_size inside, fun env => ?_⟩
  rw [tree, grown.tree_eq inside, Store.tree_eq s t]
  by_cases constant : ∃ name, s.op t = .var name ∧ s.args t = []
  · obtain ⟨name, head, empty⟩ := constant
    obtain rfl : args = [] := by simpa [empty] using built.length_eq
    rw [own (.inr empty.symm), empty, head, List.map_nil]
    exact Tree.meaning_var.trans
      ((Images.update_none (kept name head empty)).symm.trans Tree.meaning_var.symm)
  · have other : ∀ {members : List TermId}, members.length = (s.args t).length →
        ∀ name, (s.op t).key = .var name → members.map s.tree ≠ [] := by
      intro members length name head empty
      rw [List.map_eq_nil_iff] at empty
      rw [empty] at length
      exact constant ⟨name, Op.key_eq_var.mp head, List.length_eq_zero_iff.mp length.symm⟩
    rw [Tree.meaning_apply (by simpa using unbound) (other built.length_eq),
      Tree.meaning_apply (by simpa using unbound) (other rfl), Op.hasOwnSort_key, List.map_map,
      List.map_map]
    congr 1
    · by_cases its : (s.op t).hasOwnSort = true
      · rw [own (.inl its)]
      · rw [if_neg its, if_neg its]
    · rw [← List.forall₂_eq_eq_eq, List.forall₂_map_left_iff, List.forall₂_map_right_iff]
      exact built.imp fun _ _ known => known.same env

/-- A quantifier has its value once its body is replaced, as far as constants are not bound. -/
theorem rebuild_quantifies (inside : t < s.size) (avoids : images.Avoids (s.tree t))
    (binds : (s.op t).binders? = some vars)
    (built : List.Forall₂ (s.Substitutes D (images.outside vars)) args (s.args t)) :
    (rebuild t args).Ensures s fun u after => after.Substitutes D images u t := by
  refine (rebuild_tree inside (Store.Substitutes.all_inside built)).imp ?_
  rintro u after grown ⟨above, sort, tree, -⟩
  refine ⟨above, grown.lt_size inside, fun env => ?_⟩
  rw [Store.tree_eq] at avoids
  rw [tree, grown.tree_eq inside, Store.tree_eq s t]
  refine Images.meaning_quantifier avoids (by simpa using binds) ?_
  rw [List.forall₂_map_left_iff, List.forall₂_map_right_iff]
  exact built.imp fun _ _ known => known.same

/-- A constant is replaced by its image. -/
theorem image_substitutes (renames : s.Renames map) (found : map[t]? = some u) :
    s.Substitutes D (s.images map) u t := by
  obtain ⟨name, sort, constant⟩ := renames.constant t u found
  obtain ⟨inside, node⟩ := Store.node_of_getElem? constant
  refine ⟨renames.inside t u found, inside, fun env => ?_⟩
  have tree : s.tree t = .node (.var name) [] sort := by
    rw [Store.tree_eq, Store.op, Store.args, Store.sortOf, node]
    rfl
  have image : s.images map name sort = some (s.tree u) := by
    rw [Store.images_eq constant, found, Option.map_some]
  rw [tree, Tree.meaning_var, Images.update_some image]

/-- What was substituted so far has the values of what it was made of. -/
def Recorded (D : Domain) (images : Images) (s : Store) (memo : Substitution) : Prop :=
  ∀ t u : TermId, memo[t]? = some u → s.Substitutes D images u t

/-- What was substituted stays right when the store grows. -/
theorem Recorded.mono (known : Recorded D images s memo) (grown : s.Extends after) :
    Recorded D images after memo :=
  fun t u found => (known t u found).mono grown

/-- Nothing was substituted so far. -/
theorem recorded_empty (D : Domain) (images : Images) (s : Store) : Recorded D images s ∅ := by
  intro t u found
  simp at found

/-- One more term is substituted. -/
theorem Recorded.insert (known : Recorded D images s memo) (same : s.Substitutes D images u t) :
    Recorded D images s (memo.insert t u) := by
  intro t' u' found
  rw [Std.HashMap.getElem?_insert] at found
  split at found
  · next equal =>
    obtain rfl := eq_of_beq equal
    exact Option.some.inj found ▸ same
  · exact known t' u' found

/-- Substituting in terms one after the other. -/
theorem mapM_substitutes {visit : TermId → StateT Substitution Terms TermId} (terms : List TermId)
    (known : Recorded D images s memo)
    (each : ∀ a ∈ terms, ∀ now memo, s.Extends now → Recorded D images now memo →
      ((visit a).run memo).Ensures now fun r after =>
        after.Substitutes D images r.1 a ∧ Recorded D images after r.2) :
    ((terms.mapM visit).run memo).Ensures s fun r after =>
      List.Forall₂ (after.Substitutes D images) r.1 terms ∧ Recorded D images after r.2 :=
  mapM_run_ensures (K := fun now => now.Substitutes D images) (P := Recorded D images)
    Store.Substitutes.mono terms known each

/-- Substituting in a term gives one that has in every environment the value of the term where the
constants have the values of their images. -/
theorem substituteTo_substitutes {depth : ℕ} (renames : s.Renames map)
    (avoids : (s.images map).Avoids (s.tree t)) (inside : t < s.size) (deep : t < depth)
    (known : Recorded D (s.images map) s memo) :
    ((substituteTo map depth t).run memo).Ensures s fun r after =>
      after.Substitutes D (s.images map) r.1 t ∧ Recorded D (s.images map) after r.2 := by
  induction depth generalizing map s t memo with
  | zero => exact absurd deep (Nat.not_lt_zero t)
  | succ depth deeper =>
    unfold substituteTo
    cases found : map[t]? with
    | some image => exact ensures_pure ⟨image_substitutes renames found, known⟩
    | none =>
      refine Replacement.ensures_get_bind ?_
      cases remembered : memo[t]? with
      | some u => exact ensures_pure ⟨known t u remembered, known⟩
      | none =>
        have below : ∀ a ∈ s.args t, a < depth := fun a member =>
          (Store.lt_of_mem_args member).trans_le (Nat.le_of_lt_succ deep)
        have there : ∀ a ∈ s.args t, a < s.size := fun a member =>
          (Store.lt_of_mem_args member).trans inside
        have record {memo : Substitution} {args : List TermId} {now : Store}
            (known : Recorded D (s.images map) now memo)
            (rebuilt : (rebuild t args).Ensures now fun u after =>
              after.Substitutes D (s.images map) u t) :
            ((do
              let image ← rebuild t args
              modify (·.insert t image)
              return image : StateT Substitution Terms TermId).run memo).Ensures now fun r after =>
                after.Substitutes D (s.images map) r.1 t ∧
                  Recorded D (s.images map) after r.2 := by
          show (rebuild t args >>= fun image => pure (image, memo.insert t image)).Ensures now _
          refine ensures_bind rebuilt ?_
          rintro u after more same
          exact ensures_pure ⟨same, (known.mono more).insert same⟩
        refine Replacement.ensures_readThe_bind ?_
        dsimp only
        split
        · next vars binds =>
          have binds : (s.op t).binders? = some vars := binds
          have images := Store.images_unshadowed s vars map
          have inner := renames.unshadowed vars
          refine Replacement.ensures_readThe_bind ?_
          show (((s.node t).args.mapM (substituteTo (unshadowed s vars map) depth)).run ∅ >>=
            fun r => (do
              let image ← rebuild t r.1
              modify (·.insert t image)
              return image : StateT Substitution Terms TermId).run memo).Ensures s _
          refine ensures_bind (mapM_substitutes (s.args t)
            (recorded_empty D ((s.images map).outside vars) s) fun a member now memo grown known => ?_)
            ?_
          · have same := images ▸ inner.images_eq grown
            rw [← same]
            refine deeper (inner.mono grown) ?_ (grown.lt_size (there a member)) (below a member)
              (same.symm ▸ known)
            rw [same, grown.tree_eq (there a member)]
            rw [Store.tree_eq] at avoids
            exact avoids.body (by simpa using binds) (List.mem_map_of_mem member)
          · rintro ⟨args, _⟩ now grown ⟨built, -⟩
            have binds : (now.op t).binders? = some vars := by rwa [grown.op_eq inside]
            refine record (known.mono grown)
              (rebuild_quantifies (grown.lt_size inside) ?_ binds ?_)
            · rwa [grown.tree_eq inside]
            · rwa [grown.args_eq inside]
        · next unbound =>
          have unbound : (s.op t).binders? = none := unbound
          rw [StateT.run_bind]
          refine ensures_bind
            (mapM_substitutes (s.args t) known fun a member now memo grown known => ?_) ?_
          · have same := renames.images_eq grown
            rw [← same]
            refine deeper (renames.mono grown) ?_ (grown.lt_size (there a member)) (below a member)
              (same.symm ▸ known)
            rw [same, grown.tree_eq (there a member)]
            rw [Store.tree_eq] at avoids
            exact avoids.member (by simpa using unbound) (List.mem_map_of_mem member)
          · rintro ⟨args, memo⟩ now grown ⟨built, known⟩
            refine record known (rebuild_substitutes (grown.lt_size inside) ?_ ?_ ?_)
            · rwa [grown.op_eq inside]
            · rw [grown.op_eq inside, grown.args_eq inside, grown.sortOf_eq inside]
              intro name head empty
              have constant : s.nodes[t]? = some ⟨.var name, [], s.sortOf t⟩ := by
                rw [Store.getElem?_eq_node inside, ← head, ← empty]
                rfl
              rw [Store.images_eq constant, found, Option.map_none]
            · rwa [grown.args_eq inside]

/-- **Substitution**: replacing constants in a term, below quantifiers too, gives a term that has in
every environment of every domain the value of the term in the environment where each replaced
constant has the value of its image — if no name that is free in an image is bound where the
constant occurs, for bound variables are not renamed. -/
theorem substitute_meaning (D : Domain) (renames : s.Renames map)
    (avoids : (s.images map).Avoids (s.tree t)) (inside : t < s.size) :
    (substitute t map).Ensures s fun u after => u < after.size ∧ ∀ env : D.Environment,
      (after.tree u).meaning D env = (s.tree t).meaning D ((s.images map).update env) := by
  unfold substitute
  split
  · next empty =>
    refine ensures_pure ⟨inside, fun env => ?_⟩
    have kept : (s.images map).update env = env := by
      funext name sort
      refine Images.update_none ?_
      rw [Store.images, Option.map_eq_none_iff, Option.bind_eq_none_iff]
      intro x _
      exact Std.HashMap.getElem?_of_isEmpty empty
    rw [kept]
  · refine ensures_bind
      (substituteTo_substitutes renames avoids inside (Nat.lt_succ_self t)
        (recorded_empty D _ s)) ?_
    rintro ⟨u, _⟩ after grown ⟨known, -⟩
    refine ensures_pure ⟨known.inside, fun env => ?_⟩
    rw [known.same env, grown.tree_eq inside]

section Case

/-- The formula that a constant and a bound variable differ for some value of the variable, and
another constant. -/
def boundDifference : Terms (TermId × TermId × TermId) := do
  let p ← mkVar "p" .bool
  let q ← mkVar "q" .bool
  let r ← mkVar "r" .bool
  let body ← mkApp .xor [q, r]
  return (← mkExists [⟨"r", .bool⟩] body, q, p)

/-- The terms of the formula. -/
theorem boundDifference_ensures : boundDifference.Ensures .initial fun found s =>
    s.nodes[found.2.1]? = some ⟨.var "q", [], .bool⟩ ∧
      s.nodes[found.2.2]? = some ⟨.var "p", [], .bool⟩ ∧ found.1 < s.size ∧
      s.op found.1 = .existential [⟨"r", .bool⟩] ∧
      s.tree found.1 = .node (.existential [⟨"r", .bool⟩])
        [.node .xor [.node (.var "q") [] .bool, .node (.var "r") [] .bool] .bool] .bool := by
  apply ensures_bind (mkVar_node "p" .bool)
  rintro p s₁ _ ⟨pInside, pNode⟩
  apply ensures_bind (mkVar_node "q" .bool)
  rintro q s₂ grown₂ ⟨qInside, qNode⟩
  apply ensures_bind (mkVar_node "r" .bool)
  rintro r s₃ grown₃ ⟨rInside, rNode⟩
  apply ensures_bind (mkApp_node (by simpa using ⟨grown₃.lt_size qInside, rInside⟩))
  rintro body s₄ grown₄ ⟨bodyInside, bodyNode⟩
  have whole : (mkExists [⟨"r", .bool⟩] body).Ensures s₄ fun t after => t < after.size ∧
      after.node t = ⟨.existential [⟨"r", .bool⟩], [body], .bool⟩ :=
    ensures_bind_of_all fun _ _ grown => intern_node (by simpa using grown.lt_size bodyInside)
  apply ensures_bind whole
  rintro t s grown ⟨inside, node⟩
  have later := (grown₃.trans grown₄).trans grown
  refine ensures_pure ⟨later q _ ?_, (grown₂.trans later) p _ ?_, inside, congrArg Node.op node, ?_⟩
  · rw [Store.getElem?_eq_node qInside, qNode]
  · rw [Store.getElem?_eq_node pInside, pNode]
  · have tree {u : TermId} {n : Node} (same : s.node u = n) :
        s.tree u = .node n.op.key (n.args.map s.tree) n.sort := by
      rw [Store.tree_eq, Store.op, Store.args, Store.sortOf, same]
    rw [tree node, List.map_singleton, tree ((grown.node_eq bodyInside).trans bodyNode)]
    have qLast := (later.node_eq qInside).trans qNode
    have rLast := ((grown₄.trans grown).node_eq rInside).trans rNode
    rw [List.map_cons, List.map_singleton, tree qLast, tree rLast]
    rfl

/-- Replacing a constant below a quantifier by one that is not bound there. -/
theorem substitute_meaning_case :
    let s := (boundDifference.run .initial).2
    let t := (boundDifference.run .initial).1.1
    let map : Substitution := .ofList [(boundDifference.run .initial).1.2]
    s.Renames map ∧ (s.images map).Avoids (s.tree t) ∧ t < s.size ∧ (s.op t).binders? ≠ none ∧
      ∀ D : Domain, (substitute t map).Ensures s fun u after => u < after.size ∧
        ∀ env : D.Environment,
          (after.tree u).meaning D env = (s.tree t).meaning D ((s.images map).update env) := by
  obtain ⟨constant, other, inside, head, tree⟩ := boundDifference_ensures
  dsimp only
  generalize (boundDifference.run .initial).2 = s at *
  generalize (boundDifference.run .initial).1 = found at *
  obtain ⟨t, q, p⟩ := found
  dsimp only at *
  obtain ⟨there, node⟩ := Store.node_of_getElem? other
  have renames : s.Renames (.ofList [(q, p)]) := by
    refine ⟨fun x image found => ?_, fun x image found => ?_⟩
    · obtain ⟨rfl, rfl⟩ := Substitution.getElem?_single.mp found
      exact ⟨_, _, constant⟩
    · obtain ⟨rfl, rfl⟩ := Substitution.getElem?_single.mp found
      exact there
  have avoids : (s.images (.ofList [(q, p)])).Avoids (s.tree t) := by
    intro name sort bound image free found free' sort' bound' below
    obtain rfl : image = s.tree p := by
      unfold Store.images at found
      obtain ⟨v, chosen, rfl⟩ := Option.map_eq_some_iff.mp found
      obtain ⟨x, _, chosen⟩ := Option.bind_eq_some_iff.mp chosen
      rw [(Substitution.getElem?_single.mp chosen).2]
    have single : s.tree p = .node (.var "p") [] .bool := by
      rw [Store.tree_eq, Store.op, Store.args, Store.sortOf, node]
      rfl
    rw [single] at below
    rw [tree] at free
    obtain ⟨rfl, -⟩ := below.of_var
    obtain _ | ⟨member, free, -⟩ := free
    obtain rfl := List.mem_singleton.mp member
    obtain _ | ⟨member, free, -⟩ := free
    obtain rfl | rfl : _ ∨ _ := by simpa using member
    all_goals
      obtain ⟨-, rfl⟩ := free.of_var
      simp [Op.bound, Op.binders?]
  exact ⟨renames, avoids, inside, by rw [head]; simp [Op.binders?],
    fun D => substitute_meaning D renames avoids inside⟩

end Case

end Terms
end Stratagem
