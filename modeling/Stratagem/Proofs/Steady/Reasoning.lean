import Stratagem.Proofs.Term.Building
import Stratagem.Proofs.Term.Scalar

/-!
# Steady computations

A computation on terms looks at terms that are there and builds others. Run again in a store that
holds what it has built, it finds the same terms at the same positions, so it gives the same answer
and builds nothing. This is not true of every computation: one that looks at a position where a term
may be put later, or at the size of the store, can answer otherwise. A computation is steady in a
store if its answer depends only on the nodes there, and stays its answer in all stores that have
grown from the one it leaves. Steady computations also keep a store in order: every name in it is
recorded, and an irrational number has one literal. And they stay in a kind of terms: what they
build of terms of a kind is of the kind again, or it has terms of the kind as many levels below as
the rules look at when they visit it again.
-/
namespace Stratagem

open Store (Extends)

variable {α β : Type}

/-- The names that an operator mentions. -/
def Op.names : Op → List String
  | var name | apply name => [name]
  | universal vars | existential vars => vars.map (·.name)
  | _ => []

/-- An irrational literal has the one form of its number. -/
def Op.IsCanonical : Op → Prop
  | algebraic a => a.canonical = a
  | _ => True

/-- Whether an operator mentions no name and is no irrational literal. -/
def Op.isInterpreted : Op → Bool
  | var _ | apply _ | universal _ | existential _ | algebraic _ => false
  | _ => true

/-- Whether the rules may write an operator by others. -/
def Op.isDerived : Op → Bool
  | and | implies | xor | distinct | lt | gt | sub | neg | rem | tan => true
  | _ => false

/-- Whether an operator is interpreted and no rule writes it by others. -/
def Op.isPrimitive (op : Op) : Bool := op.isInterpreted && !op.isDerived

/-- A head that makes terms of terms: it is neither a constant nor a quantifier. -/
def Op.Composes (op : Op) : Prop := op.binders? = none ∧ ∀ name, op ≠ .var name

/-- Interpreted operators make terms of terms. -/
theorem Op.composes_of_isInterpreted {op : Op} (interpreted : op.isInterpreted = true) :
    op.Composes := by
  constructor
  · cases op <;> simp_all [Op.binders?, Op.isInterpreted]
  · rintro name rfl
    cases interpreted

/-- Primitive operators are interpreted. -/
theorem Op.isInterpreted_of_isPrimitive {op : Op} (primitive : op.isPrimitive = true) :
    op.isInterpreted = true := Bool.and_elim_left primitive

/-- Primitive operators are not derived. -/
theorem Op.isDerived_of_isPrimitive {op : Op} (primitive : op.isPrimitive = true) :
    op.isDerived = false := by
  simpa using Bool.and_elim_right primitive

/-- The one form of a number depends on its polynomial and the position of its root only. -/
theorem Algebraic.canonical_canonical (a : Algebraic) : a.canonical.canonical = a.canonical := rfl

namespace Store

variable {s after : Store} {op : Op}

/-- The names of an operator are recorded, and a literal has its one form. -/
structure Knows (s : Store) (op : Op) : Prop where
  /-- The names are recorded. -/
  names : ∀ name ∈ op.names, name ∈ s.names
  /-- The literal has its one form. -/
  canonical : op.IsCanonical

/-- Every operator in the store is known, and every sort is recorded once. -/
structure Orderly (s : Store) : Prop where
  /-- Every operator is known. -/
  known : ∀ (t : TermId) (node : Node), s.nodes[t]? = some node → s.Knows node.op
  /-- No sort is recorded twice. -/
  nodup : s.sorts.toList.Nodup

/-- Interpreted operators are known everywhere. -/
theorem knows_of_isInterpreted (interpreted : op.isInterpreted = true) (s : Store) :
    s.Knows op := by
  constructor
  · cases op <;> simp_all [Op.names, Op.isInterpreted]
  · cases op <;> simp_all [Op.IsCanonical, Op.isInterpreted]

/-- What is known stays known when names are added. -/
theorem Knows.mono (known : s.Knows op) (more : ∀ name ∈ s.names, name ∈ after.names) :
    after.Knows op :=
  ⟨fun name member => more name (known.names name member), known.canonical⟩

/-- A store whose nodes and sorts are those of a store in order is in order if no name is lost. -/
theorem Orderly.of_nodes (orderly : s.Orderly) (nodes : after.nodes = s.nodes)
    (sorts : after.sorts = s.sorts) (more : ∀ name ∈ s.names, name ∈ after.names) :
    after.Orderly where
  known t node found := (orderly.known t node (nodes ▸ found)).mono more
  nodup := sorts ▸ orderly.nodup

/-- Recording a sort keeps a store in order. -/
theorem Orderly.withSort (orderly : s.Orderly) (sort : TermSort) : (s.withSort sort).Orderly := by
  unfold Store.withSort
  split
  · exact orderly
  · next new =>
    refine ⟨fun t node found => (orderly.known t node found).mono fun name member => member, ?_⟩
    rw [Array.toList_push, List.nodup_append]
    refine ⟨orderly.nodup, List.nodup_singleton sort, fun other member u last => ?_⟩
    obtain rfl := List.mem_singleton.mp last
    rintro rfl
    exact new (Array.contains_iff_mem.mpr (Array.mem_toList_iff.mp member))

/-- Adding a node whose operator is known keeps a store in order. -/
theorem Orderly.add {node : Node} (orderly : s.Orderly) (known : s.Knows node.op)
    (new : s.table[node]? = none) (fits : ∀ a ∈ node.args, a < s.nodes.size) :
    (s.add node new fits).Orderly where
  known t n found := by
    have found : (s.nodes.push node)[t]? = some n := found
    rw [Array.getElem?_push] at found
    split at found
    · obtain rfl := Option.some.inj found
      exact known.mono fun name member => member
    · exact (orderly.known t n found).mono fun name member => member
  nodup := orderly.nodup

/-- The head of any position of a store in order is known. -/
theorem Orderly.knows (orderly : s.Orderly) (t : TermId) : s.Knows (s.op t) := by
  by_cases inside : t < s.size
  · exact orderly.known t _ (getElem?_eq_node inside)
  · have missing : s.nodes[t]? = none := Array.getElem?_eq_none (Nat.le_of_not_lt inside)
    rw [op, node, Array.getD_eq_getD_getElem?, missing]
    exact knows_of_isInterpreted rfl s

/-- The truth values are there. -/
theorem ofBool_lt (s : Store) (b : Bool) : Terms.ofBool b < s.size := by
  cases b with
  | false => exact s.node_falseId.1
  | true => exact s.node_trueId.1

/-- The arguments of a term that is there are there. -/
theorem lt_size_of_view {t : TermId} {args : List TermId} (inside : t < s.size)
    (view : s.view t = (op, args)) : ∀ a ∈ args, a < s.size := by
  intro a member
  have arguments : s.args t = args := congrArg Prod.snd view
  exact (lt_of_mem_args (arguments ▸ member)).trans inside

/-- Terms that are there are there when the store has grown. -/
theorem Extends.all_lt_size {terms : List TermId} (grown : s.Extends after)
    (inside : ∀ a ∈ terms, a < s.size) : ∀ a ∈ terms, a < after.size :=
  fun a member => grown.lt_size (inside a member)

/-- Stores with the same nodes extend each other. -/
theorem Extends.of_nodes_eq (nodes : after.nodes = s.nodes) : s.Extends after :=
  fun _ _ found => nodes ▸ found

/-- A kind of terms in a wider class of terms. Both are closed under arguments, the class under all
heads that make terms of terms, and the kind at least under those of them that are not derived. -/
structure Kind where
  /-- The terms of the kind in a store. -/
  Member : Store → TermId → Prop
  /-- The terms of the class in a store. -/
  Wide : Store → TermId → Prop
  /-- Heads that the kind is closed under. -/
  Head : Op → Prop
  /-- Terms of the class are there. -/
  wide_inside : ∀ {s : Store} {t : TermId}, Wide s t → t < s.size
  /-- The kind is a part of the class. -/
  wide : ∀ {s : Store} {t : TermId}, Member s t → Wide s t
  /-- Terms stay of the kind when the store grows. -/
  mono : ∀ {s after : Store} {t : TermId}, s.Extends after → Member s t → Member after t
  /-- Terms stay of the class when the store grows. -/
  wide_mono : ∀ {s after : Store} {t : TermId}, s.Extends after → Wide s t → Wide after t
  /-- Arguments of terms of the kind are of the kind. -/
  of_args : ∀ {s : Store} (t : TermId), Member s t → ∀ a ∈ s.args t, Member s a
  /-- Arguments of terms of the class are of the class. -/
  wide_of_args : ∀ {s : Store} (t : TermId), Wide s t → ∀ a ∈ s.args t, Wide s a
  /-- Heads that make terms of terms and are not derived are among those of the kind. -/
  primitive : ∀ {op : Op}, op.Composes → op.isDerived = false → Head op
  /-- What is made of terms of the kind by such a head is of the kind. -/
  composed : ∀ {s : Store} {t : TermId}, t < s.size → Head (s.op t) →
    (∀ a ∈ s.args t, Member s a) → Member s t
  /-- What is made of terms of the class is of the class. -/
  wide_composed : ∀ {s : Store} {t : TermId}, t < s.size → (s.op t).Composes →
    (∀ a ∈ s.args t, Wide s a) → Wide s t

/-- A kind that is closed under all heads that make terms of terms. -/
def Kind.closed (Member : Store → TermId → Prop)
    (inside : ∀ {s : Store} {t : TermId}, Member s t → t < s.size)
    (mono : ∀ {s after : Store} {t : TermId}, s.Extends after → Member s t → Member after t)
    (of_args : ∀ {s : Store} (t : TermId), Member s t → ∀ a ∈ s.args t, Member s a)
    (composed : ∀ {s : Store} {t : TermId}, t < s.size → (s.op t).Composes →
      (∀ a ∈ s.args t, Member s a) → Member s t) : Kind where
  Member
  Wide := Member
  Head := Op.Composes
  wide_inside := inside
  wide := id
  mono
  wide_mono := mono
  of_args
  wide_of_args := of_args
  primitive composes _ := composes
  composed
  wide_composed := composed

/-- All terms that are there. -/
def Kind.all : Kind :=
  .closed (fun s t => t < s.size) id Extends.lt_size
    (fun _ inside _ member => (lt_of_mem_args member).trans inside) fun inside _ _ => inside

variable {K : Kind}

/-- Terms of a kind are there. -/
theorem Kind.inside (K : Kind) {t : TermId} (member : K.Member s t) : t < s.size :=
  K.wide_inside (K.wide member)

/-- Primitive heads are among those of every kind. -/
theorem Kind.head_of_isPrimitive (K : Kind) (primitive : op.isPrimitive = true) : K.Head op :=
  K.primitive (Op.composes_of_isInterpreted (Op.isInterpreted_of_isPrimitive primitive))
    (Op.isDerived_of_isPrimitive primitive)

/-- The terms a number of levels below a term are of a kind, and those above them of its class. -/
def Kind.Below (K : Kind) : ℕ → Store → TermId → Prop
  | 0, s, t => K.Member s t
  | levels + 1, s, t => K.Wide s t ∧ ∀ a ∈ s.args t, K.Below levels s a

/-- What is below a term of a kind is of the kind. -/
theorem Kind.below_of_member {t : TermId} (member : K.Member s t) :
    ∀ levels, K.Below levels s t
  | 0 => member
  | levels + 1 =>
    ⟨K.wide member, fun a argument => below_of_member (K.of_args t member a argument) levels⟩

/-- A term with terms of a kind below is of its class. -/
theorem Kind.Below.wide {t : TermId} {levels : ℕ} (below : K.Below levels s t) : K.Wide s t := by
  cases levels with
  | zero => exact K.wide below
  | succ levels => exact below.1

/-- Terms of a kind stay below when the store grows. -/
theorem Kind.Below.mono {t : TermId} {levels : ℕ} (below : K.Below levels s t)
    (grown : s.Extends after) : K.Below levels after t := by
  induction levels generalizing t with
  | zero => exact K.mono grown below
  | succ levels lower =>
    refine ⟨K.wide_mono grown below.1, fun a argument => ?_⟩
    rw [grown.args_eq (K.wide_inside below.1)] at argument
    exact lower (below.2 a argument)

/-- Terms of a kind are also found one level further below. -/
theorem Kind.Below.succ {t : TermId} {levels : ℕ} (below : K.Below levels s t) :
    K.Below (levels + 1) s t := by
  induction levels generalizing t with
  | zero => exact Kind.below_of_member below 1
  | succ levels lower => exact ⟨below.1, fun a argument => lower (below.2 a argument)⟩

/-- Terms of a kind are also found further below. -/
theorem Kind.Below.le {t : TermId} {levels more : ℕ} (below : K.Below levels s t)
    (further : levels ≤ more) : K.Below more s t := by
  induction further with
  | refl => exact below
  | step _ lower => exact lower.succ

/-- The truth values are of every kind. -/
theorem Kind.ofBool (K : Kind) (s : Store) (b : Bool) : K.Member s (Terms.ofBool b) := by
  have node : s.node (Terms.ofBool b) = ⟨.bool b, [], .bool⟩ := by
    cases b with
    | false => exact s.node_falseId.2
    | true => exact s.node_trueId.2
  refine K.composed (s.ofBool_lt b) ?_ ?_
  · rw [op, node]
    exact K.head_of_isPrimitive rfl
  · simp [args, node]

/-- The arguments of a term of a kind are of the kind. -/
theorem Kind.of_view {t : TermId} {args : List TermId} (inside : K.Member s t)
    (view : s.view t = (op, args)) : ∀ a ∈ args, K.Member s a := by
  have arguments : s.args t = args := congrArg Prod.snd view
  exact arguments ▸ K.of_args t inside

/-- The arguments of a term with terms of a kind one level below are of the kind. -/
theorem Kind.Below.of_view {t : TermId} {args : List TermId} (below : K.Below 1 s t)
    (view : s.view t = (op, args)) : ∀ a ∈ args, K.Member s a := by
  have arguments : s.args t = args := congrArg Prod.snd view
  exact arguments ▸ below.2

/-- Terms of a kind are there. -/
theorem Kind.all_inside {terms : List TermId} (inside : ∀ a ∈ terms, K.Member s a) :
    ∀ a ∈ terms, a < s.size := fun a member => K.inside (inside a member)

/-- A term stays of its kind when the store has grown. -/
theorem Extends.member {t : TermId} (grown : s.Extends after) (inside : K.Member s t) :
    K.Member after t := K.mono grown inside

/-- Terms stay of their kind when the store has grown. -/
theorem Extends.all_member {terms : List TermId} (grown : s.Extends after)
    (inside : ∀ a ∈ terms, K.Member s a) : ∀ a ∈ terms, K.Member after a :=
  fun a member => K.mono grown (inside a member)

end Store

open Store (Kind)

/-- The result of the rules, if there is one, is of a kind as far down as it is not visited
again. -/
def Outcome.Within (K : Kind) (o : Outcome) (s : Store) : Prop :=
  match o with
  | .failed => True
  | .done r => K.Member s r
  | .revisit depth r => K.Below depth s r
  | .revisitAll r => K.Wide s r

namespace Outcome

variable {K : Kind} {s after : Store}

/-- No result is of any kind. -/
theorem Within.failed : Outcome.failed.Within K s := trivial

/-- A result stays of its kind when the store grows. -/
theorem Within.mono {o : Outcome} (within : o.Within K s) (grown : s.Extends after) :
    o.Within K after := by
  cases o with
  | failed => exact .failed
  | done => exact K.mono grown within
  | revisit => exact Kind.Below.mono within grown
  | revisitAll => exact K.wide_mono grown within

/-- The result is of the class of the kind. -/
theorem Within.wide {o : Outcome} {t : TermId} (within : o.Within K s)
    (result : o.result? = some t) : K.Wide s t := by
  cases o with
  | failed => cases result
  | done => exact Option.some.inj result ▸ K.wide within
  | revisit => exact Option.some.inj result ▸ Kind.Below.wide within
  | revisitAll => exact Option.some.inj result ▸ within

/-- A result is of the kind that its term is of. -/
theorem Within.of_result? {o : Outcome} {t : TermId} (result : o.result? = some t)
    (inside : K.Member s t) : o.Within K s := by
  cases o with
  | failed => exact .failed
  | done => exact Option.some.inj result ▸ inside
  | revisit depth => exact Option.some.inj result ▸ Kind.below_of_member inside depth
  | revisitAll => exact Option.some.inj result ▸ K.wide inside

end Outcome

namespace Terms

variable {s after : Store} {work : Terms α} {next : α → Terms β} {good : α → Store → Prop}
  {final : β → Store → Prop}

/-- From every store with the nodes of one, a computation gives an answer and leaves the nodes of
another, and in order what is in order. -/
def Leads (work : Terms α) (s : Store) (a : α) (after : Store) : Prop :=
  ∀ now : Store, now.nodes = s.nodes → ∃ last, work.run now = (a, last) ∧
    last.nodes = after.nodes ∧ (now.Orderly → last.Orderly)

/-- From the nodes of one store a computation gives an answer and leaves the nodes of another; where
these are, it gives the same answer again and leaves all as it is. -/
structure Yields (work : Terms α) (s : Store) (a : α) (after : Store) : Prop where
  /-- Nothing is lost. -/
  grown : s.Extends after
  /-- The computation gives the answer. -/
  leads : work.Leads s a after
  /-- The answer stays the answer when the store has grown. -/
  again : ∀ later, after.Extends later → work.Leads later a later

/-- Once a computation has given its answer, it gives it again and leaves all as it is. -/
theorem Yields.settles {a : α} {later : Store} (yields : work.Yields s a after)
    (more : after.Extends later) : work.Yields later a later where
  grown := .refl later
  leads := yields.again later more
  again last most := yields.again last (more.trans most)

/-- A computation leads to one answer and to one list of nodes. -/
theorem Leads.unique {s' after' : Store} {a a' : α} (first : work.Leads s a after)
    (second : work.Leads s' a' after') (same : s'.nodes = s.nodes) :
    a' = a ∧ after'.nodes = after.nodes := by
  obtain ⟨last, ran, nodes, _⟩ := first s rfl
  obtain ⟨last', ran', nodes', _⟩ := second s same.symm
  obtain ⟨rfl, rfl⟩ := Prod.mk.inj (ran.symm.trans ran')
  exact ⟨rfl, nodes'.symm.trans nodes⟩

/-- What a computation yields is what it gives in every store with the same nodes. -/
theorem Leads.ensures {a : α} {now : Store} (leads : work.Leads s a after)
    (same : now.nodes = s.nodes) :
    work.Ensures now fun b last =>
      b = a ∧ last.nodes = after.nodes ∧ (now.Orderly → last.Orderly) := by
  obtain ⟨last, ran, nodes, kept⟩ := leads now same
  unfold Ensures
  rw [ran]
  exact ⟨rfl, nodes, kept⟩

/-- What a computation ensures holds of the answer that it leads to, in a store with the nodes that
it leaves. -/
theorem Leads.exists_of_ensures {a : α} (leads : work.Leads s a after)
    (ensured : work.Ensures s good) : ∃ last : Store, last.nodes = after.nodes ∧ good a last := by
  obtain ⟨last, ran, nodes, _⟩ := leads s rfl
  unfold Ensures at ensured
  rw [ran] at ensured
  exact ⟨last, nodes, ensured⟩

/-- A computation gives an answer that depends only on the nodes of the store and stays the answer
when the store has grown. -/
def Steady (work : Terms α) (s : Store) (good : α → Store → Prop) : Prop :=
  ∃ a after, good a after ∧ work.Yields s a after

/-- A steady computation ensures that its answer is what it yields. -/
theorem Steady.ensures (steady : work.Steady s good)
    (lasting : ∀ a after after', after'.nodes = after.nodes → good a after → good a after') :
    work.Ensures s fun a after =>
      good a after ∧ work.Yields s a after ∧ (s.Orderly → after.Orderly) := by
  obtain ⟨a, after, holds, yields⟩ := steady
  refine (yields.leads.ensures rfl).imp fun b last _ found => ?_
  obtain ⟨rfl, nodes, kept⟩ := found
  refine ⟨lasting b after last nodes holds,
    ⟨yields.grown.trans (.of_nodes_eq nodes), ?_, ?_⟩, kept⟩
  · intro now same
    obtain ⟨final, ran, reached, kept⟩ := yields.leads now same
    exact ⟨final, ran, reached.trans nodes.symm, kept⟩
  · exact fun later more => yields.again later ((Extends.of_nodes_eq nodes).trans more)

/-- A result alone is steady. -/
theorem steady_pure {a : α} (holds : good a s) : (pure a : Terms α).Steady s good :=
  ⟨a, s, holds, .refl s, fun now same => ⟨now, rfl, same, id⟩,
    fun _ _ now same => ⟨now, rfl, same, id⟩⟩

/-- What a steady computation answers to holds of the answer that it leads to. -/
theorem Steady.of_leads {a : α} (steady : work.Steady s good) (leads : work.Leads s a after)
    (lasting : ∀ a before after, before.Extends after → good a before → good a after) :
    good a after := by
  obtain ⟨a', after', holds, yields⟩ := steady
  obtain ⟨rfl, nodes⟩ := yields.leads.unique leads rfl
  exact lasting a after' after (.of_nodes_eq nodes) holds

/-- A steady computation that answers with a term of a kind ensures it. -/
theorem Steady.member {K : Kind} {work : Terms TermId}
    (steady : work.Steady s fun t after => K.Member after t) :
    work.Ensures s fun t after => K.Member after t :=
  (steady.ensures fun _ _ _ nodes => K.mono (.of_nodes_eq nodes)).imp fun _ _ _ found => found.1

/-- What follows from what a steady computation answers. -/
theorem Steady.imp {weaker : α → Store → Prop} (steady : work.Steady s good)
    (follows : ∀ a after, s.Extends after → good a after → weaker a after) :
    work.Steady s weaker := by
  obtain ⟨a, after, holds, yields⟩ := steady
  exact ⟨a, after, follows a after yields.grown holds, yields⟩

/-- One computation leads to the other. -/
theorem Leads.bind {middle : Store} {a : α} {b : β} (first : work.Leads s a middle)
    (second : (next a).Leads middle b after) : (work >>= next).Leads s b after := by
  intro now same
  obtain ⟨later, ran, nodes, kept⟩ := first now same
  obtain ⟨last, finished, nodes', kept'⟩ := second later nodes
  refine ⟨last, ?_, nodes', kept' ∘ kept⟩
  rw [run_bind, ran, finished]

/-- A steady computation and then another one. -/
theorem steady_bind (first : work.Steady s good)
    (second : ∀ a after, s.Extends after → good a after → (next a).Steady after final) :
    (work >>= next).Steady s final := by
  obtain ⟨a, middle, holds, grown, leads, again⟩ := first
  obtain ⟨b, after, done, more, leads', again'⟩ := second a middle grown holds
  refine ⟨b, after, done, grown.trans more, leads.bind leads', fun later most => ?_⟩
  exact (again later (more.trans most)).bind (again' later most)

/-- Looking at what the store says of terms that are there, and then a computation for it. -/
theorem steady_read_bind {next : Store → Terms β}
    (same : ∀ later : Store, s.Extends later → next later = next s)
    (steady : (next s).Steady s final) : (read >>= next : Terms β).Steady s final := by
  obtain ⟨b, after, done, grown, leads, again⟩ := steady
  refine ⟨b, after, done, grown, fun now nodes => ?_, fun later more now nodes => ?_⟩
  · rw [run_bind, run_read, same now (.of_nodes_eq nodes)]
    exact leads now nodes
  · have most : s.Extends now := grown.trans (more.trans (.of_nodes_eq nodes))
    rw [run_bind, run_read, same now most]
    exact again later more now nodes

/-- Recording a sort changes no nodes. -/
theorem steady_recordSort (sort : TermSort) :
    (recordSort sort).Steady s fun _ after => after = s := by
  have recorded (now : Store) : (now.withSort sort).nodes = now.nodes := by
    unfold Store.withSort
    split <;> rfl
  have leads (now : Store) : (recordSort sort).Leads now () now := fun other same =>
    ⟨_, rfl, (recorded other).trans same, fun orderly => orderly.withSort sort⟩
  exact ⟨(), s, rfl, .refl s, leads s, fun later _ => leads later⟩

/-- Interning a node that is there. -/
theorem leads_intern_of_mem {node : Node} {t : TermId} (found : s.nodes[t]? = some node) :
    (intern node).Leads s t s := by
  intro now same
  have known : now.table[node]? = some t := (now.exact node t).mpr (same ▸ found)
  refine ⟨now, ?_, same, id⟩
  unfold intern
  dsimp only
  split
  · next u there =>
    rw [known] at there
    rw [Option.some.inj there]
  · next new =>
    rw [known] at new
    cases new

/-- Interning a node whose arguments are there and whose operator is known in a store in order. -/
theorem steady_intern {node : Node} (inside : ∀ a ∈ node.args, a < s.size)
    (known : ∀ now : Store, now.nodes = s.nodes → now.Orderly → now.Knows node.op) :
    (intern node).Steady s fun t after => t < after.size ∧ after.node t = node := by
  have built := intern_getElem? inside
  refine ⟨((intern node).run s).1, ((intern node).run s).2, intern_node inside,
    (intern node).grows s, fun now same => ?_, fun later more => ?_⟩
  · cases there : s.table[node]? with
    | some t =>
      have found := (s.exact node t).mp there
      have unchanged : (intern node).run s = (t, s) := by
        unfold intern
        dsimp only
        split
        · next u there' => rw [Option.some.inj (there.symm.trans there')]
        · next new => cases there.symm.trans new
      rw [unchanged]
      exact leads_intern_of_mem found now same
    | none =>
      have fits : ∀ a ∈ node.args, a < s.nodes.size := inside
      have fits' : ∀ a ∈ node.args, a < now.nodes.size := same ▸ inside
      have new : now.table[node]? = none := by
        rw [Option.eq_none_iff_forall_ne_some]
        intro t found
        have found := (now.exact node t).mp found
        rw [same] at found
        cases there.symm.trans ((s.exact node t).mpr found)
      have ran (x : Store) (none : x.table[node]? = none)
          (fits : ∀ a ∈ node.args, a < x.nodes.size) :
          (intern node).run x = (x.nodes.size, x.add node none fits) := by
        unfold intern
        dsimp only
        split
        · next u there' => cases none.symm.trans there'
        · rw [dif_pos fits]
      rw [ran s there fits]
      refine ⟨now.add node new fits', ?_, ?_, fun orderly => ?_⟩
      · rw [ran now new fits', same]
      · show now.nodes.push node = s.nodes.push node
        rw [same]
      · exact orderly.add (known now same orderly) new fits'
  · exact leads_intern_of_mem (more _ _ built)

section Constructors

variable {K : Kind} {op : Op} {args : List TermId} {t : TermId}

/-- An application of an operator that is known in a store in order. -/
theorem steady_mkApp_of_knows (inside : ∀ a ∈ args, a < s.size)
    (known : ∀ now : Store, now.nodes = s.nodes → now.Orderly → now.Knows op) :
    (mkApp op args).Steady s fun t after => t < after.size ∧ after.view t = (op, args) := by
  have interned : (intern ⟨op, args, s.inferSort op args⟩).Steady s
      fun t after => t < after.size ∧ after.view t = (op, args) := by
    refine (steady_intern inside known).imp fun t after _ found => ⟨found.1, ?_⟩
    rw [Store.view, found.2]
  unfold mkApp
  refine steady_read_bind (fun later grown => ?_) ?_
  · have sorts : args.map later.sortOf = args.map s.sortOf :=
      List.map_congr_left fun a member => grown.sortOf_eq (inside a member)
    rw [Store.inferSort_congr sorts]
  · dsimp only
    split
    case h_4 => exact interned
    all_goals
      refine steady_bind (steady_recordSort _) fun _ after _ same => ?_
      exact same ▸ interned

/-- What a head makes of terms of a kind is of the kind. -/
theorem member_of_view {after : Store} (head : K.Head op)
    (inside : ∀ a ∈ args, K.Member s a) (grown : s.Extends after)
    (built : t < after.size ∧ after.view t = (op, args)) : K.Member after t := by
  obtain ⟨same, arguments⟩ := Prod.mk.inj built.2
  refine K.composed built.1 ?_ ?_
  · rwa [Store.op, same]
  · rw [Store.args, arguments]
    exact grown.all_member inside

/-- What a head makes of terms with terms of a kind below has them one level further below. -/
theorem below_of_view {after : Store} {levels : ℕ} (composes : op.Composes)
    (inside : ∀ a ∈ args, K.Below levels s a) (grown : s.Extends after)
    (built : t < after.size ∧ after.view t = (op, args)) : K.Below (levels + 1) after t := by
  obtain ⟨same, arguments⟩ := Prod.mk.inj built.2
  have known : ∀ a ∈ after.args t, K.Below levels after a := by
    rw [Store.args, arguments]
    exact fun a member => (inside a member).mono grown
  refine ⟨K.wide_composed built.1 ?_ fun a member => (known a member).wide, known⟩
  rwa [Store.op, same]

/-- An application of an interpreted operator that a kind is closed under. -/
theorem steady_mkApp_of_head (head : K.Head op) (interpreted : op.isInterpreted = true)
    (inside : ∀ a ∈ args, K.Member s a) :
    (mkApp op args).Steady s fun t after => K.Member after t :=
  (steady_mkApp_of_knows (Kind.all_inside inside) fun now _ _ =>
    Store.knows_of_isInterpreted interpreted now).imp fun _ _ grown built =>
      member_of_view head inside grown built

/-- An application of a primitive operator. -/
theorem steady_mkApp (K : Kind) (primitive : op.isPrimitive = true)
    (inside : ∀ a ∈ args, K.Member s a) :
    (mkApp op args).Steady s fun t after => K.Member after t :=
  steady_mkApp_of_head (K.head_of_isPrimitive primitive)
    (Op.isInterpreted_of_isPrimitive primitive) inside

/-- An application of an interpreted operator to terms with terms of a kind below. -/
theorem steady_mkApp_below (levels : ℕ) (interpreted : op.isInterpreted = true)
    (inside : ∀ a ∈ args, K.Below levels s a) :
    (mkApp op args).Steady s fun t after => K.Below (levels + 1) after t :=
  (steady_mkApp_of_knows (fun a member => K.wide_inside (inside a member).wide) fun now _ _ =>
    Store.knows_of_isInterpreted interpreted now).imp fun _ _ grown built =>
      below_of_view (Op.composes_of_isInterpreted interpreted) inside grown built

/-- A literal of the integer or of the real sort. -/
theorem steady_literal {node : Node} (leaf : node.args = [])
    (primitive : node.op.isPrimitive = true) :
    (intern node).Steady s fun t after => K.Member after t := by
  refine (steady_intern (by simp [leaf]) fun now _ _ => Store.knows_of_isInterpreted
    (Op.isInterpreted_of_isPrimitive primitive) now).imp fun t after grown found => ?_
  have none : ∀ a ∈ ([] : List TermId), K.Member s a := by simp
  refine member_of_view (K.head_of_isPrimitive primitive) none grown ⟨found.1, ?_⟩
  rw [Store.view, found.2, leaf]

/-- An integer literal. -/
theorem steady_mkInt (K : Kind) (n : ℤ) : (mkInt n).Steady s fun t after => K.Member after t :=
  steady_literal rfl rfl

/-- A rational literal. -/
theorem steady_mkReal (K : Kind) (r : ℚ) : (mkReal r).Steady s fun t after => K.Member after t :=
  steady_literal rfl rfl

/-- A rational literal of either sort. -/
theorem steady_mkNumeral (K : Kind) (r : ℚ) (isInt : Bool) :
    (mkNumeral r isInt).Steady s fun t after => K.Member after t := by
  unfold mkNumeral
  split
  · exact steady_mkInt K _
  · exact steady_mkReal K _

/-- A literal of the real sort. -/
theorem steady_mkRealNumeral (K : Kind) (n : Numeral) :
    (mkRealNumeral n).Steady s fun t after => K.Member after t := by
  cases n with
  | rational r => exact steady_mkReal K r
  | irrational a =>
    have known (now : Store) : now.Knows (.algebraic a.canonical) :=
      ⟨by simp [Op.names], a.canonical_canonical⟩
    exact (steady_mkApp_of_knows (by simp) fun now _ _ => known now).imp fun _ _ grown built =>
      member_of_view (K.primitive ⟨rfl, by simp⟩ rfl) (by simp) grown built

/-- A bit-vector literal. -/
theorem steady_mkBitVec (K : Kind) (value : ℤ) (width : ℕ) :
    (mkBitVec value width).Steady s fun t after => K.Member after t :=
  steady_mkApp K rfl (by simp)

/-- A negation. -/
theorem steady_mkNot (inside : K.Member s t) :
    (mkNot t).Steady s fun t after => K.Member after t :=
  steady_mkApp K rfl (by simpa using inside)

/-- A conjunction, if a kind is closed under it. -/
theorem steady_mkAnd (head : K.Head .and) (inside : ∀ a ∈ args, K.Member s a) :
    (mkAnd args).Steady s fun t after => K.Member after t := by
  unfold mkAnd
  split
  · exact steady_pure (K.ofBool s true)
  · exact steady_pure (inside _ (List.mem_singleton_self _))
  · exact steady_mkApp_of_head head rfl inside

/-- A conjunction is of the kind of its members, or its head is one of conjunctions. -/
theorem steady_mkAnd_below (inside : ∀ a ∈ args, K.Member s a) :
    (mkAnd args).Steady s fun t after =>
      K.Member after t ∨ after.op t = .and ∧ K.Below 1 after t := by
  unfold mkAnd
  split
  · exact steady_pure (.inl (K.ofBool s true))
  · exact steady_pure (.inl (inside _ (List.mem_singleton_self _)))
  · refine (steady_mkApp_of_knows (Kind.all_inside inside) fun now _ _ =>
      Store.knows_of_isInterpreted rfl now).imp fun t after grown built => .inr ⟨?_, ?_⟩
    · exact congrArg Prod.fst built.2
    · exact below_of_view (Op.composes_of_isInterpreted rfl) inside grown built

/-- A disjunction. -/
theorem steady_mkOr (inside : ∀ a ∈ args, K.Member s a) :
    (mkOr args).Steady s fun t after => K.Member after t := by
  unfold mkOr
  split
  · exact steady_pure (K.ofBool s false)
  · exact steady_pure (inside _ (List.mem_singleton_self _))
  · exact steady_mkApp K rfl inside

/-- A sum. -/
theorem steady_mkAdd (inside : ∀ a ∈ args, K.Member s a) :
    (mkAdd args).Steady s fun t after => K.Member after t := by
  unfold mkAdd
  split
  · exact steady_pure (inside _ (List.mem_singleton_self _))
  · exact steady_mkApp K rfl inside

/-- A product. -/
theorem steady_mkMul (inside : ∀ a ∈ args, K.Member s a) :
    (mkMul args).Steady s fun t after => K.Member after t := by
  unfold mkMul
  split
  · exact steady_pure (inside _ (List.mem_singleton_self _))
  · exact steady_mkApp K rfl inside

/-- A term with other arguments; with its own it is left alone. -/
theorem steady_rebuild_view (there : t < s.size) (inside : ∀ a ∈ args, a < s.size) :
    (rebuild t args).Steady s fun u after =>
      u < after.size ∧ after.view u = (s.op t, args) ∧ (s.args t = args → u = t) := by
  have known : ∀ now : Store, now.nodes = s.nodes → now.Orderly → now.Knows (s.op t) := by
    intro now same orderly
    rw [← Store.Extends.op_eq (.of_nodes_eq same) there]
    exact orderly.knows t
  unfold rebuild
  refine steady_read_bind (fun later grown => by rw [grown.node_eq there]) ?_
  dsimp only
  split
  · next same => exact steady_pure ⟨there, by rw [← same]; rfl, fun _ => rfl⟩
  · next other =>
    split
    · have interned : (intern { s.node t with args }).Steady s fun u after =>
          u < after.size ∧ after.node u = { s.node t with args } := steady_intern inside known
      refine interned.imp fun u after _ found => ⟨found.1, ?_, fun same => absurd same other⟩
      rw [Store.view, found.2]
      rfl
    · exact (steady_mkApp_of_knows inside known).imp fun u after _ found =>
        ⟨found.1, found.2, fun same => absurd same other⟩

/-- A term with other arguments. -/
theorem steady_rebuild (there : t < s.size) (inside : ∀ a ∈ args, a < s.size) :
    (rebuild t args).Steady s fun t after => t < after.size :=
  (steady_rebuild_view there inside).imp fun _ _ _ found => found.1

/-- A term with other arguments is of the kind of the arguments; a term whose head the kind is not
closed under must be of the kind itself and keep its arguments. -/
theorem steady_rebuild_member (there : t < s.size) (inside : ∀ a ∈ args, K.Member s a)
    (leaf : K.Head (s.op t) ∨ s.args t = args ∧ K.Member s t) :
    (rebuild t args).Steady s fun t after => K.Member after t := by
  refine (steady_rebuild_view there (Kind.all_inside inside)).imp fun u after grown found => ?_
  obtain head | ⟨same, member⟩ := leaf
  · exact member_of_view head inside grown ⟨found.1, found.2.1⟩
  · exact found.2.2 same ▸ grown.member member

end Constructors

end Terms

namespace Rule

variable {K : Kind} {config : SimplifierConfig} {s after : Store} {rule : Rule α}
  {next : α → Rule β} {good : α → Store → Prop} {final : β → Store → Prop}

/-- From every store with the nodes of one a rule gives an answer and leaves the nodes of another,
and in order what is in order. What was counted does not matter for the answer and for what is
built. -/
def Leads (rule : Rule α) (config : SimplifierConfig) (s : Store) (a : α) (after : Store) : Prop :=
  ∀ now : Store, now.nodes = s.nodes → ∃ last : Store, last.nodes = after.nodes ∧
    (now.Orderly → last.Orderly) ∧ ∀ tally, ∃ tally',
      ((rule.run config).run tally).run now = ((a, tally'), last)

/-- From the nodes of one store a rule gives an answer and leaves the nodes of another; where these
are, it gives the same answer again and leaves all as it is. -/
structure Yields (rule : Rule α) (config : SimplifierConfig) (s : Store) (a : α) (after : Store) :
    Prop where
  /-- Nothing is lost. -/
  grown : s.Extends after
  /-- The rule gives the answer. -/
  leads : rule.Leads config s a after
  /-- The answer stays the answer when the store has grown. -/
  again : ∀ later, after.Extends later → rule.Leads config later a later

/-- Once a rule has given its answer, it gives it again and leaves all as it is. -/
theorem Yields.settles {a : α} {later : Store} (yields : rule.Yields config s a after)
    (more : after.Extends later) : rule.Yields config later a later where
  grown := .refl later
  leads := yields.again later more
  again last most := yields.again last (more.trans most)

/-- A rule leads to one answer and to one list of nodes. -/
theorem Leads.unique {s' after' : Store} {a a' : α} (first : rule.Leads config s a after)
    (second : rule.Leads config s' a' after') (same : s'.nodes = s.nodes) :
    a' = a ∧ after'.nodes = after.nodes := by
  obtain ⟨last, nodes, _, each⟩ := first s rfl
  obtain ⟨last', nodes', _, each'⟩ := second s same.symm
  obtain ⟨tally, ran⟩ := each {}
  obtain ⟨tally', ran'⟩ := each' {}
  obtain ⟨pair, rfl⟩ := Prod.mk.inj (ran.symm.trans ran')
  exact ⟨(Prod.mk.inj pair).1.symm, nodes'.symm.trans nodes⟩

/-- What a rule yields is what it gives in every store with the same nodes. -/
theorem Leads.ensures {a : α} {now : Store} (leads : rule.Leads config s a after)
    (same : now.nodes = s.nodes) :
    rule.Ensures config now fun b last =>
      b = a ∧ last.nodes = after.nodes ∧ (now.Orderly → last.Orderly) := by
  intro tally
  obtain ⟨last, nodes, kept, each⟩ := leads now same
  obtain ⟨tally', ran⟩ := each tally
  rw [ran]
  exact ⟨rfl, nodes, kept⟩

/-- What a rule ensures holds of the answer that it leads to, in a store with the nodes that it
leaves. -/
theorem Leads.exists_of_ensures {a : α} (leads : rule.Leads config s a after)
    (ensured : rule.Ensures config s good) :
    ∃ last : Store, last.nodes = after.nodes ∧ good a last := by
  obtain ⟨last, nodes, _, each⟩ := leads s rfl
  obtain ⟨tally, ran⟩ := each {}
  have holds := ensured {}
  rw [ran] at holds
  exact ⟨last, nodes, holds⟩

/-- A rule gives an answer that depends only on the nodes of the store and stays the answer when the
store has grown. -/
def Steady (rule : Rule α) (config : SimplifierConfig) (s : Store) (good : α → Store → Prop) :
    Prop :=
  ∃ a after, good a after ∧ rule.Yields config s a after

/-- A steady rule ensures that its answer is what it yields. -/
theorem Steady.ensures (steady : rule.Steady config s good)
    (lasting : ∀ a after after', after'.nodes = after.nodes → good a after → good a after') :
    rule.Ensures config s fun a after =>
      good a after ∧ rule.Yields config s a after ∧ (s.Orderly → after.Orderly) := by
  obtain ⟨a, after, holds, yields⟩ := steady
  refine (yields.leads.ensures rfl).imp fun b last _ found => ?_
  obtain ⟨rfl, nodes, kept⟩ := found
  refine ⟨lasting b after last nodes holds,
    ⟨yields.grown.trans (.of_nodes_eq nodes), ?_, ?_⟩, kept⟩
  · intro now same
    obtain ⟨final, reached, kept, each⟩ := yields.leads now same
    exact ⟨final, reached.trans nodes.symm, kept, each⟩
  · exact fun later more => yields.again later ((Extends.of_nodes_eq nodes).trans more)

/-- A result alone is steady. -/
theorem steady_pure {a : α} (holds : good a s) : (pure a : Rule α).Steady config s good :=
  ⟨a, s, holds, .refl s, fun now same => ⟨now, same, id, fun tally => ⟨tally, rfl⟩⟩,
    fun _ _ now same => ⟨now, same, id, fun tally => ⟨tally, rfl⟩⟩⟩

/-- What a steady rule answers to holds of the answer that it leads to. -/
theorem Steady.of_leads {a : α} (steady : rule.Steady config s good)
    (leads : rule.Leads config s a after)
    (lasting : ∀ a before after, before.Extends after → good a before → good a after) :
    good a after := by
  obtain ⟨a', after', holds, yields⟩ := steady
  obtain ⟨rfl, nodes⟩ := yields.leads.unique leads rfl
  exact lasting a after' after (.of_nodes_eq nodes) holds

/-- What follows from what a steady rule answers. -/
theorem Steady.imp {weaker : α → Store → Prop} (steady : rule.Steady config s good)
    (follows : ∀ a after, s.Extends after → good a after → weaker a after) :
    rule.Steady config s weaker := by
  obtain ⟨a, after, holds, yields⟩ := steady
  exact ⟨a, after, follows a after yields.grown holds, yields⟩

/-- The second rule starts from the store and the counts of the first. -/
theorem run_bind (rule : Rule α) (next : α → Rule β) (tally : RuleTally) (now : Store) :
    (((rule >>= next).run config).run tally).run now =
      (((next (((rule.run config).run tally).run now).1.1).run config).run
        (((rule.run config).run tally).run now).1.2).run (((rule.run config).run tally).run now).2 :=
  rfl

/-- One rule leads to the other. -/
theorem Leads.bind {middle : Store} {a : α} {b : β} (first : rule.Leads config s a middle)
    (second : (next a).Leads config middle b after) : (rule >>= next).Leads config s b after := by
  intro now same
  obtain ⟨later, nodes, kept, each⟩ := first now same
  obtain ⟨last, nodes', kept', each'⟩ := second later nodes
  refine ⟨last, nodes', kept' ∘ kept, fun tally => ?_⟩
  obtain ⟨tally', ran⟩ := each tally
  obtain ⟨tally'', finished⟩ := each' tally'
  refine ⟨tally'', ?_⟩
  rw [run_bind, ran]
  exact finished

/-- A steady rule and then another one. -/
theorem steady_bind (first : rule.Steady config s good)
    (second : ∀ a after, s.Extends after → good a after → (next a).Steady config after final) :
    (rule >>= next).Steady config s final := by
  obtain ⟨a, middle, holds, grown, leads, again⟩ := first
  obtain ⟨b, after, done, more, leads', again'⟩ := second a middle grown holds
  refine ⟨b, after, done, grown.trans more, leads.bind leads', fun later most => ?_⟩
  exact (again later (more.trans most)).bind (again' later most)

/-- A function of what a steady rule answers. -/
theorem steady_map {f : α → β} (steady : rule.Steady config s fun a after => final (f a) after) :
    (f <$> rule).Steady config s final :=
  steady_bind steady fun _ _ _ holds => steady_pure holds

/-- A choice between two rules and then another one. -/
theorem steady_ite_bind {c : Prop} [Decidable c] {yes no : Rule α}
    (first : (if c then yes else no).Steady config s good)
    (second : ∀ a after, s.Extends after → good a after → (next a).Steady config after final) :
    (if c then yes >>= next else no >>= next).Steady config s final := by
  by_cases holds : c
  · rw [if_pos holds] at first ⊢
    exact steady_bind first second
  · rw [if_neg holds] at first ⊢
    exact steady_bind first second

/-- A value and then a rule on it. -/
theorem steady_pure_bind {a : α} (steady : (next a).Steady config s final) :
    (pure a >>= next).Steady config s final := steady

/-- Reading the configuration and then a rule for it. -/
theorem steady_read_bind {next : SimplifierConfig → Rule β}
    (steady : (next config).Steady config s final) : (read >>= next).Steady config s final := by
  obtain ⟨b, after, done, grown, leads, again⟩ := steady
  exact ⟨b, after, done, grown, leads, again⟩

/-- Counting, and then a rule. -/
theorem steady_modify_bind {count : RuleTally → RuleTally} {next : Unit → Rule β}
    (steady : (next ()).Steady config s final) : (modify count >>= next).Steady config s final := by
  obtain ⟨b, after, done, grown, leads, again⟩ := steady
  have counted {before last : Store} (leads : (next ()).Leads config before b last) :
      (modify count >>= next).Leads config before b last := by
    intro now same
    obtain ⟨final, nodes, kept, each⟩ := leads now same
    exact ⟨final, nodes, kept, fun tally => each (count tally)⟩
  exact ⟨b, after, done, grown, counted leads, fun later more => counted (again later more)⟩

/-- Looking at terms that are there. -/
theorem steady_peek {look : Store → α}
    (same : ∀ later : Store, s.Extends later → look later = look s) (holds : good (look s) s) :
    (peek look).Steady config s good := by
  have leads (later : Store) (grown : s.Extends later) :
      (peek look).Leads config later (look s) later := fun now nodes =>
    have seen := same now (grown.trans (.of_nodes_eq nodes))
    ⟨now, nodes, id, fun tally => ⟨tally, congrArg (fun a => ((a, tally), now)) seen⟩⟩
  exact ⟨look s, s, holds, .refl s, leads s (.refl s), fun later more => leads later more⟩

/-- Looking at terms that are there and then a rule for what is seen. -/
theorem steady_peek_bind {look : Store → α}
    (same : ∀ later : Store, s.Extends later → look later = look s)
    (steady : (next (look s)).Steady config s final) :
    (peek look >>= next).Steady config s final := by
  have seen : (peek look).Steady config s fun a after => a = look s ∧ after = s :=
    steady_peek same ⟨rfl, rfl⟩
  refine steady_bind seen fun a after _ known => ?_
  obtain ⟨rfl, rfl⟩ := known
  exact steady

/-- Building terms. -/
theorem steady_lift {work : Terms α} (steady : work.Steady s good) :
    (liftM work : Rule α).Steady config s good := by
  obtain ⟨a, after, holds, grown, leads, again⟩ := steady
  have lifted {s after : Store} (leads : work.Leads s a after) :
      (liftM work : Rule α).Leads config s a after := by
    intro now same
    obtain ⟨last, ran, nodes, kept⟩ := leads now same
    refine ⟨last, nodes, kept, fun tally => ⟨tally, ?_⟩⟩
    show (((work.run now).1, tally), (work.run now).2) = _
    rw [ran]
  exact ⟨a, after, holds, grown, lifted leads, fun later more => lifted (again later more)⟩

/-- Building terms and then a rule. -/
theorem steady_lift_bind {work : Terms α} (steady : work.Steady s good)
    (second : ∀ a after, s.Extends after → good a after → (next a).Steady config after final) :
    ((liftM work : Rule α) >>= next).Steady config s final :=
  steady_bind (steady_lift steady) second

/-- A rule on every member of a list. -/
theorem steady_mapM {γ : Type} {rule : γ → Rule α}
    (lasting : ∀ a before after, Extends before after → good a before → good a after) :
    ∀ (members : List γ) {s : Store},
    (∀ m ∈ members, ∀ now, s.Extends now → (rule m).Steady config now good) →
    (members.mapM rule).Steady config s fun results after => ∀ a ∈ results, good a after
  | [], s, _ => steady_pure nofun
  | m :: rest, s, each => by
    rw [List.mapM_cons]
    refine steady_bind (each m (List.mem_cons_self ..) s (.refl s)) fun a middle grown first => ?_
    have later : ∀ m ∈ rest, ∀ now, middle.Extends now → (rule m).Steady config now good :=
      fun m inside now more => each m (List.mem_cons_of_mem _ inside) now (grown.trans more)
    refine steady_bind (steady_mapM lasting rest later) fun results after more others => ?_
    exact steady_pure (List.forall_mem_cons.mpr ⟨lasting a middle after more first, others⟩)

/-- Terms built one after the other. -/
theorem steady_mapM_terms (K : Kind) {γ : Type} {rule : γ → Rule TermId} {members : List γ}
    (each : ∀ m ∈ members, ∀ now, s.Extends now →
      (rule m).Steady config now fun t after => K.Member after t) :
    (members.mapM rule).Steady config s fun terms after => ∀ t ∈ terms, K.Member after t := by
  refine steady_mapM ?_ members each
  exact fun t before after grown inside => grown.member inside

/-- An attempt that gives nothing or a rule's answer. -/
theorem steady_option_mapM {γ : Type} {rule : γ → Rule α} {member : Option γ}
    (each : ∀ m ∈ member, (rule m).Steady config s good) :
    (member.mapM rule).Steady config s fun result after => ∀ a ∈ result, good a after := by
  cases member with
  | none => exact steady_pure nofun
  | some m =>
    refine steady_bind (each m rfl) fun a after _ holds => steady_pure fun b same => ?_
    obtain rfl := Option.some.inj same
    exact holds

/-- A term is built and becomes the result. -/
theorem steady_result {build : Terms TermId} {wrap : TermId → Outcome}
    (steady : build.Steady s fun t after => K.Member after t)
    (result : ∀ t, (wrap t).result? = some t) :
    ((liftM build : Rule TermId) >>= fun t => pure (wrap t)).Steady config s (Outcome.Within K) :=
  steady_lift_bind steady fun t _ _ inside => steady_pure (.of_result? (result t) inside)

/-- A comparison with a known answer. -/
theorem steady_decided (answer : Bool) : (decided answer).Steady config s (Outcome.Within K) :=
  steady_modify_bind (steady_pure (.of_result? rfl (K.ofBool s answer)))

/-- The value of a literal. -/
theorem steady_numeralValue?_bind {t : TermId} {next : Option Numeral → Rule β}
    (inside : K.Member s t) (steady : ∀ value, (next value).Steady config s final) :
    (numeralValue? t >>= next).Steady config s final := by
  have seen : (numeralValue? t).Steady config s fun _ after => after = s := by
    refine steady_read_bind (steady_peek (fun later grown => ?_) rfl)
    rw [Store.exactNumeral?, Store.exactNumeral?, grown.op_eq (K.inside inside)]
  exact steady_bind seen fun value after _ same => same ▸ steady value

/-- The outcome of a computation on numerals. -/
theorem steady_compute_bind {work : Algebraic.Compute α} {next : Except AlgebraicError α → Rule β}
    (steady : ∀ answer, (next answer).Steady config s final) :
    (compute work >>= next).Steady config s final := by
  unfold compute
  exact steady_read_bind (steady_pure_bind (steady _))

/-- The result of a computation on numerals. -/
theorem steady_evaluate? {work : Algebraic.Compute α} :
    (evaluate? work).Steady config s fun _ after => after = s := by
  unfold evaluate?
  refine steady_compute_bind fun answer => ?_
  split
  · exact steady_pure rfl
  · exact steady_modify_bind (steady_pure rfl)
  · exact steady_pure rfl

/-- The result of a computation on numerals and then a rule. -/
theorem steady_evaluate?_bind {work : Algebraic.Compute α} {next : Option α → Rule β}
    (steady : ∀ answer, (next answer).Steady config s final) :
    (evaluate? work >>= next).Steady config s final :=
  steady_bind steady_evaluate? fun answer _ _ same => same ▸ steady answer

/-- A literal. -/
theorem steady_mkNumber (K : Kind) (n : Numeral) (isInt : Bool) :
    (mkNumber n isInt).Steady config s fun t after => K.Member after t := by
  cases n with
  | rational r => exact steady_lift (Terms.steady_mkNumeral K r isInt)
  | irrational a => exact steady_lift (Terms.steady_mkRealNumeral K _)

end Rule

end Stratagem
