import Mathlib.Data.Nat.Count
import Stratagem.Proofs.Term.Meaning
import Stratagem.Term.Traversal

/-!
# What walks over terms find

The search for free constants enters each term once and marks it before it has searched the
arguments. It is complete all the same: the terms that are marked but not yet searched stand above
the one that is searched, and only terms below that one are looked up.
-/
namespace Stratagem

/-- The names that an operator binds. -/
def Op.bound (op : Op) : List String := (op.binders?.getD []).map (·.name)

namespace Store

variable {s : Store} {c t u : TermId}

/-- A term whose head is not the literal `false` is in the store. -/
theorem lt_size_of_op (other : s.op t ≠ .bool false) : t < s.size := by
  apply Nat.lt_of_not_le
  intro outside
  have missing : s.nodes[t]? = none := Array.getElem?_eq_none outside
  rw [op, node, Array.getD_eq_getD_getElem?, missing] at other
  exact other rfl

/-- A constant is in the store. -/
theorem lt_size_of_var {name : String} (var : s.op t = .var name) : t < s.size :=
  lt_size_of_op (by rw [var]; exact nofun)

/-- A term occurs in another: it is the term itself or occurs in an argument. -/
inductive Occurs (s : Store) (c : TermId) : TermId → Prop
  /-- A term occurs in itself. -/
  | here : Occurs s c c
  /-- What occurs in an argument occurs in the term. -/
  | there {a t : TermId} (member : a ∈ s.args t) (below : Occurs s c a) : Occurs s c t

/-- What occurs in a term stands before it, or is the term. -/
theorem Occurs.le (occurs : s.Occurs c t) : c ≤ t := by
  induction occurs with
  | here => exact Nat.le_refl c
  | there member _ smaller => exact smaller.trans (Nat.le_of_lt (lt_of_mem_args member))

/-- What occurs in a term is the term or occurs in an argument. -/
theorem Occurs.cases (occurs : s.Occurs c t) : c = t ∨ ∃ a ∈ s.args t, s.Occurs c a := by
  cases occurs with
  | here => exact .inl rfl
  | there member below => exact .inr ⟨_, member, below⟩

/-- The arguments of what occurs in a term occur in it. -/
theorem Occurs.arg {a : TermId} (occurs : s.Occurs u t) (member : a ∈ s.args u) :
    s.Occurs a t := by
  induction occurs with
  | here => exact .there member .here
  | there above _ below => exact .there above below

/-- What occurs in a term after the store has grown did before. -/
theorem Occurs.of_extends {after : Store} (occurs : after.Occurs c t) (grown : s.Extends after)
    (inside : t < s.size) : s.Occurs c t := by
  induction occurs with
  | here => exact .here
  | there member _ deeper =>
    rw [grown.args_eq inside] at member
    exact .there member (deeper ((lt_of_mem_args member).trans inside))

/-- What occurs in a term does so when the store has grown. -/
theorem Occurs.mono {after : Store} (occurs : s.Occurs c t) (grown : s.Extends after)
    (inside : t < s.size) : after.Occurs c t := by
  induction occurs with
  | here => exact .here
  | there member _ deeper =>
    refine .there ?_ (deeper ((lt_of_mem_args member).trans inside))
    rwa [grown.args_eq inside]

/-- A term has no quantifiers, and its constants have no arguments. -/
def Plain (s : Store) (t : TermId) : Prop :=
  ∀ u, s.Occurs u t →
    (s.op u).binders? = none ∧ ∀ name, s.op u = .var name → s.args u = []

/-- The arguments of a term without quantifiers have none. -/
theorem Plain.of_mem_args {a : TermId} (plain : s.Plain t) (member : a ∈ s.args t) : s.Plain a :=
  fun u occurs => plain u (.there member occurs)

/-- A term occurs in another under these bound names, the innermost first. A constant has no
parts. -/
inductive OccursUnder (s : Store) (u : TermId) : List String → TermId → Prop
  /-- A term occurs in itself, and nothing is bound there. -/
  | here : OccursUnder s u [] u
  /-- What occurs in an argument occurs in the term, under the names that its head binds too. -/
  | there {a t : TermId} {bound : List String} (compound : ∀ name, s.op t ≠ .var name)
    (member : a ∈ s.args t) (below : OccursUnder s u bound a) :
    OccursUnder s u (bound ++ (s.op t).bound.reverse) t

/-- A constant occurs free in a term: one of its occurrences is not under a quantifier that binds
its name. -/
def Free (s : Store) (c t : TermId) : Prop :=
  ∃ name bound, s.op c = .var name ∧ s.OccursUnder c bound t ∧ name ∉ bound

/-- Wherever a subterm occurs under equally many bound names, the same free constants of it are
bound. -/
def BindsAlike (s : Store) (t : TermId) : Prop :=
  ∀ u bound bound', s.OccursUnder u bound t → s.OccursUnder u bound' t →
    bound.length = bound'.length → ∀ c name, s.Free c u → s.op c = .var name →
    name ∈ bound → name ∈ bound'

/-- What occurs under bound names occurs. -/
theorem OccursUnder.occurs {bound : List String} (occurs : s.OccursUnder u bound t) :
    s.Occurs u t := by
  induction occurs with
  | here => exact .here
  | there _ member _ deeper => exact .there member deeper

/-- An argument of what occurs in a term occurs there, under the names that the head binds too. -/
theorem OccursUnder.arg {a : TermId} {bound : List String} (occurs : s.OccursUnder u bound t)
    (compound : ∀ name, s.op u ≠ .var name) (member : a ∈ s.args u) :
    s.OccursUnder a ((s.op u).bound.reverse ++ bound) t := by
  induction occurs with
  | here => simpa using OccursUnder.there compound member .here
  | there above inside _ deeper =>
    rw [← List.append_assoc]
    exact .there above inside deeper

/-- What occurs in a term under bound names is the term or occurs in an argument. -/
theorem OccursUnder.cases {bound : List String} (occurs : s.OccursUnder u bound t) :
    u = t ∧ bound = [] ∨ (∀ name, s.op t ≠ .var name) ∧ ∃ a ∈ s.args t, ∃ inner,
      s.OccursUnder u inner a ∧ bound = inner ++ (s.op t).bound.reverse := by
  cases occurs with
  | here => exact .inl ⟨rfl, rfl⟩
  | there compound member below => exact .inr ⟨compound, _, member, _, below, rfl⟩

/-- Only itself is free in a constant. -/
theorem Free.eq_of_var {name : String} (free : s.Free c t) (var : s.op t = .var name) : c = t := by
  obtain ⟨_, _, _, occurs, _⟩ := free
  obtain ⟨same, _⟩ | ⟨compound, _⟩ := occurs.cases
  · exact same
  · exact absurd var (compound name)

/-- What is free in a term that is no constant is free in an argument and not bound by the head. -/
theorem Free.cases {name : String} (free : s.Free c t) (compound : ∀ name, s.op t ≠ .var name)
    (var : s.op c = .var name) : name ∉ (s.op t).bound ∧ ∃ a ∈ s.args t, s.Free c a := by
  obtain ⟨other, bound, known, occurs, unbound⟩ := free
  obtain rfl : other = name := Op.var.inj (known.symm.trans var)
  obtain ⟨rfl, _⟩ | ⟨_, a, member, inner, below, rfl⟩ := occurs.cases
  · exact absurd var (compound other)
  · rw [List.mem_append, List.mem_reverse, not_or] at unbound
    exact ⟨unbound.2, a, member, other, inner, var, below, unbound.1⟩

/-- In a term without quantifiers nothing is bound. -/
theorem Plain.bound_nil {bound : List String} (plain : s.Plain t)
    (occurs : s.OccursUnder u bound t) : bound = [] := by
  induction occurs with
  | here => rfl
  | there _ member _ deeper =>
    rw [deeper (plain.of_mem_args member), Op.bound, (plain _ .here).1]
    rfl

/-- The constants that occur in a term without quantifiers are free. -/
theorem Plain.free {name : String} (plain : s.Plain t) (occurs : s.Occurs c t)
    (var : s.op c = .var name) : s.Free c t := by
  refine ⟨name, [], var, ?_, List.not_mem_nil⟩
  induction occurs with
  | here => exact .here
  | @there a t member _ deeper =>
    obtain ⟨binds, leaf⟩ := plain t .here
    have nothing : [] = [] ++ (s.op t).bound.reverse := by
      rw [Op.bound, binds]
      rfl
    rw [nothing]
    refine .there (fun other head => ?_) member (deeper (plain.of_mem_args member))
    rw [leaf other head] at member
    cases member

/-- In a term without quantifiers, every subterm occurs under no names. -/
theorem Plain.bindsAlike (plain : s.Plain t) : s.BindsAlike t := by
  intro u bound bound' first _ _ c name _ _ among
  rw [plain.bound_nil first] at among
  cases among

namespace FreeSearch

/-- The constants that are free in a term and not bound around it are found. -/
def Covers (s : Store) (search : FreeSearch) (bound : List String) (t : TermId) : Prop :=
  ∀ c name, s.Free c t → s.op c = .var name → name ∉ bound → c ∈ search.found

/-- Where the terms that were entered occur in a root, their free constants are found, as far as the
terms stand before a position. -/
def Complete (s : Store) (root : TermId) (search : FreeSearch) (limit : ℕ) : Prop :=
  ∀ u < limit, ∀ bound, s.OccursUnder u bound root → search.seen.contains (u, bound.length) →
    search.Covers s bound u

/-- One search goes on from another, and enters only terms before a position. -/
structure Continues (before after : FreeSearch) (limit : ℕ) : Prop where
  /-- No constant is lost. -/
  found : ∀ c ∈ before.found, c ∈ after.found
  /-- Terms entered now stand before the position. -/
  seen : ∀ u count, after.seen.contains (u, count) →
    before.seen.contains (u, count) ∨ u < limit

variable {before after : FreeSearch} {limit : ℕ}

/-- A search that goes on from another one covers what that one covers. -/
theorem Covers.mono {bound : List String} (covers : before.Covers s bound t)
    (further : before.Continues after limit) : after.Covers s bound t :=
  fun c name free var unbound => further.found c (covers c name free var unbound)

/-- A search goes on from itself. -/
theorem Continues.refl (search : FreeSearch) (limit : ℕ) : search.Continues search limit :=
  ⟨fun _ member => member, fun _ _ entered => .inl entered⟩

/-- Searches go on one after the other. -/
theorem Continues.trans {third : FreeSearch} {first : ℕ} (early : before.Continues after first)
    (late : after.Continues third limit) (less : first ≤ limit) :
    before.Continues third limit where
  found c member := late.found c (early.found c member)
  seen u count entered := by
    obtain old | small := late.seen u count entered
    · exact (early.seen u count old).imp_right less.trans_lt'
    · exact .inr small

end FreeSearch

open FreeSearch

/-- What a search through a term does that occurs in a root under bound names. -/
structure Searched (s : Store) (root : TermId) (before after : FreeSearch) (bound : List String)
    (t : TermId) (limit : ℕ) : Prop where
  /-- The search goes on from the one before. -/
  continues : before.Continues after (t + 1)
  /-- What was entered is searched. -/
  complete : after.Complete s root limit
  /-- The term is searched. -/
  covers : after.Covers s bound t

/-- Arguments are searched one after the other. -/
theorem foldl_searched {root t : TermId} {bound : List String}
    (visit : FreeSearch → TermId → FreeSearch) (args : List TermId)
    (each : ∀ a ∈ args, ∀ search : FreeSearch, search.Complete s root t →
      s.Searched root search (visit search a) bound a t)
    (below : ∀ a ∈ args, a < t) {search : FreeSearch} (complete : search.Complete s root t) :
    search.Continues (args.foldl visit search) t ∧ (args.foldl visit search).Complete s root t ∧
      ∀ a ∈ args, (args.foldl visit search).Covers s bound a := by
  induction args generalizing search with
  | nil => exact ⟨.refl search t, complete, nofun⟩
  | cons a rest tail =>
    obtain ⟨small, smaller⟩ := List.forall_mem_cons.mp below
    obtain ⟨first, others⟩ := List.forall_mem_cons.mp each
    have here := first search complete
    obtain ⟨further, whole, covers⟩ := tail others smaller here.complete
    refine ⟨here.continues.trans further small, whole, ?_⟩
    intro b member
    obtain rfl | later := List.mem_cons.mp member
    · exact here.covers.mono further
    · exact covers b later

/-- In a term that is no constant, the arguments are searched under the names that its head binds. -/
theorem collectFree_of_compound {depth : ℕ} {bound : List String} {search : FreeSearch}
    (compound : ∀ name, s.op t ≠ .var name) :
    s.collectFree (depth + 1) bound search t =
      if search.seen.contains (t, bound.length) then search
      else (s.args t).foldl (s.collectFree depth ((s.op t).bound.reverse ++ bound))
        { search with seen := search.seen.insert (t, bound.length) } := by
  rw [collectFree]
  refine if_congr Iff.rfl rfl ?_
  split
  · next name var => exact absurd var (compound name)
  · unfold Op.bound
    cases (s.op t).binders? <;> rfl

/-- A constant is found unless its name is bound. -/
theorem collectFree_of_var {depth : ℕ} {bound : List String} {search : FreeSearch} {name : String}
    (var : s.op t = .var name) :
    s.collectFree (depth + 1) bound search t =
      if search.seen.contains (t, bound.length) then search
      else if bound.contains name || search.found.contains t then
        { search with seen := search.seen.insert (t, bound.length) }
      else { seen := search.seen.insert (t, bound.length), found := search.found.push t } := by
  rw [collectFree, var]

/-- The search finds the free constants of a term that occurs in a root which binds alike: a term is
searched once for each number of names bound around it, and that number determines which of its free
constants are bound. -/
theorem collectFree_searched {depth limit : ℕ} {root : TermId} {bound : List String}
    {search : FreeSearch} (alike : s.BindsAlike root) (deep : t < depth) (inside : t < limit)
    (occurs : s.OccursUnder t bound root) (complete : search.Complete s root limit) :
    s.Searched root search (s.collectFree depth bound search t) bound t limit := by
  induction depth generalizing t limit search bound with
  | zero => exact absurd deep (Nat.not_lt_zero t)
  | succ depth deeper =>
    by_cases entered : search.seen.contains (t, bound.length)
    · rw [collectFree, if_pos entered]
      exact ⟨.refl search _, complete, complete t inside bound occurs entered⟩
    · -- What the search through the term itself must still show.
      have finish : ∀ after : FreeSearch,
          Continues { search with seen := search.seen.insert (t, bound.length) } after t →
          after.Complete s root t → after.Covers s bound t →
          s.Searched root search after bound t limit := by
        intro after further whole covers
        have entries : ∀ u count, after.seen.contains (u, count) →
            (u = t ∧ count = bound.length) ∨ search.seen.contains (u, count) ∨ u < t := by
          intro u count there
          obtain old | small := further.seen u count there
          · rw [Std.HashSet.contains_insert, Bool.or_eq_true, beq_iff_eq, Prod.mk.injEq] at old
            exact old.imp (fun same => ⟨same.1.symm, same.2.symm⟩) .inl
          · exact .inr (.inr small)
        have continues : search.Continues after (t + 1) := by
          refine ⟨further.found, fun u count there => ?_⟩
          obtain ⟨rfl, _⟩ | old | small := entries u count there
          · exact .inr (Nat.lt_succ_self u)
          · exact .inl old
          · exact .inr (Nat.lt_succ_of_lt small)
        refine ⟨continues, fun u small bound' other there => ?_, covers⟩
        obtain ⟨rfl, same⟩ | old | below := entries u bound'.length there
        · intro c name free var unbound
          exact covers c name free var fun among =>
            unbound (alike u bound bound' occurs other same.symm c name free var among)
        · exact (complete u small bound' other old).mono continues
        · exact whole u below bound' other there
      have started : FreeSearch.Complete s root
          { search with seen := search.seen.insert (t, bound.length) } t := by
        intro u below bound' other there
        rw [Std.HashSet.contains_insert, Bool.or_eq_true, beq_iff_eq, Prod.mk.injEq] at there
        obtain ⟨rfl, _⟩ | older := there
        · exact absurd below (Nat.lt_irrefl _)
        · exact complete u (below.trans inside) bound' other older
      by_cases constant : ∃ name, s.op t = .var name
      · obtain ⟨name, var⟩ := constant
        rw [collectFree_of_var var, if_neg entered]
        split
        · next known =>
          refine finish _ (.refl _ t) started fun c other free same unbound => ?_
          obtain rfl := free.eq_of_var var
          obtain rfl : other = name := Op.var.inj (same.symm.trans var)
          rw [Bool.or_eq_true, List.contains_iff_mem, Array.contains_iff_mem] at known
          exact known.resolve_left unbound
        · refine finish _ ⟨fun _ member => ?_, fun _ _ entered => .inl entered⟩ ?_ ?_
          · exact Array.mem_push.mpr (.inl member)
          · intro u below bound' other there c name free var unbound
            exact Array.mem_push.mpr (.inl (started u below bound' other there c name free var unbound))
          · exact fun c _ free _ _ => Array.mem_push.mpr (.inr (free.eq_of_var var))
      · have compound : ∀ name, s.op t ≠ .var name := fun name var => constant ⟨name, var⟩
        rw [collectFree_of_compound compound, if_neg entered]
        have arguments := foldl_searched (s.collectFree depth ((s.op t).bound.reverse ++ bound))
          (s.args t) (fun a member search complete => deeper
            ((lt_of_mem_args member).trans_le (Nat.le_of_lt_succ deep)) (lt_of_mem_args member)
            (occurs.arg compound member) complete)
          (fun a => lt_of_mem_args) started
        refine finish _ arguments.1 arguments.2.1 fun c name free var unbound => ?_
        obtain ⟨outside, a, member, below⟩ := free.cases compound var
        refine arguments.2.2 a member c name below var ?_
        rw [List.mem_append, List.mem_reverse, not_or]
        exact ⟨outside, unbound⟩

/-- Every free constant of a term that binds alike is found. -/
theorem mem_freeConstants_of_free (alike : s.BindsAlike t) (free : s.Free c t) :
    c ∈ s.freeConstants t := by
  have complete : FreeSearch.Complete s t {} (t + 1) := by
    intro u _ bound _ entered
    rw [Std.HashSet.contains_empty] at entered
    cases entered
  have searched := collectFree_searched alike (Nat.lt_succ_self t) (Nat.lt_succ_self t) .here
    complete
  obtain ⟨name, _, var, _, _⟩ := id free
  exact Array.mem_toList_iff.mpr (searched.covers c name free var List.not_mem_nil)

/-- Every constant of a term without quantifiers is among its free constants. -/
theorem mem_freeConstants {name : String} (plain : s.Plain t) (occurs : s.Occurs c t)
    (var : s.op c = .var name) : c ∈ s.freeConstants t :=
  mem_freeConstants_of_free plain.bindsAlike (plain.free occurs var)

/-- What the search for free constants adds are constants that occur in the term and are bound
neither there nor around it; it adds none twice. -/
theorem collectFree_free {depth : ℕ} {bound : List String} {search : FreeSearch}
    (distinct : search.found.toList.Nodup) :
    (s.collectFree depth bound search t).found.toList.Nodup ∧
      ∀ c ∈ (s.collectFree depth bound search t).found, c ∈ search.found ∨
        ∃ name inner, s.op c = .var name ∧ s.OccursUnder c inner t ∧ name ∉ inner ++ bound := by
  induction depth generalizing bound search t with
  | zero => exact ⟨distinct, fun _ => .inl⟩
  | succ depth deeper =>
    by_cases constant : ∃ name, s.op t = .var name
    · obtain ⟨name, var⟩ := constant
      rw [collectFree_of_var var]
      split
      · exact ⟨distinct, fun _ => .inl⟩
      split
      · exact ⟨distinct, fun _ => .inl⟩
      · next unknown =>
        rw [Bool.or_eq_true, List.contains_iff_mem, Array.contains_iff_mem, not_or] at unknown
        constructor
        · rw [Array.toList_push, List.nodup_append]
          refine ⟨distinct, List.nodup_singleton t, fun a before b here same => ?_⟩
          obtain rfl := List.mem_singleton.mp here
          exact unknown.2 (Array.mem_toList_iff.mp (same ▸ before))
        · intro c member
          rcases Array.mem_push.mp member with before | rfl
          · exact .inl before
          · exact .inr ⟨name, [], var, .here, unknown.1⟩
    · have compound : ∀ name, s.op t ≠ .var name := fun name var => constant ⟨name, var⟩
      rw [collectFree_of_compound compound]
      split
      · exact ⟨distinct, fun _ => .inl⟩
      -- The invariant along the arguments: what was not there before is free in the term.
      refine List.foldlRecOn (motive := fun now : FreeSearch => now.found.toList.Nodup ∧
        ∀ c ∈ now.found, c ∈ search.found ∨ ∃ name inner, s.op c = .var name ∧
          s.OccursUnder c inner t ∧ name ∉ inner ++ bound) (s.args t) _
        ⟨distinct, fun _ => .inl⟩ fun now known a argument => ?_
      obtain ⟨apart, free⟩ : (s.collectFree depth ((s.op t).bound.reverse ++ bound) now
          a).found.toList.Nodup ∧ _ := deeper known.1
      refine ⟨apart, fun c found => ?_⟩
      rcases free c found with before | ⟨name, inner, var, below, unbound⟩
      · exact known.2 c before
      · exact .inr ⟨name, _, var, .there compound argument below, by rwa [List.append_assoc]⟩

/-- No constant is listed twice. -/
theorem nodup_freeConstants (s : Store) (t : TermId) : (s.freeConstants t).Nodup :=
  (collectFree_free List.nodup_nil).1

/-- The constants that are found are free. -/
theorem free_of_mem_freeConstants (member : c ∈ s.freeConstants t) : s.Free c t := by
  rcases (collectFree_free List.nodup_nil).2 c (Array.mem_toList_iff.mp member) with before | free
  · exact absurd before (Array.not_mem_empty c)
  · obtain ⟨name, inner, var, occurs, unbound⟩ := free
    exact ⟨name, inner, var, occurs, by rwa [List.append_nil] at unbound⟩

/-- The free constants of a term are constants that occur in it. -/
theorem occurs_of_mem_freeConstants (member : c ∈ s.freeConstants t) :
    s.Occurs c t ∧ ∃ name, s.op c = .var name := by
  obtain ⟨name, _, var, occurs, _⟩ := free_of_mem_freeConstants member
  exact ⟨occurs.occurs, name, var⟩

end Store

namespace Substitution

variable {map : Substitution} {t u : TermId} {n : ℕ}

/-- The number of terms below a position that have no image. -/
def missing (map : Substitution) (n : ℕ) : ℕ := Nat.count (fun t => map[t]? = none) n

/-- One more term that has no image. -/
theorem missing_succ_of_none (new : map[n]? = none) : map.missing (n + 1) = map.missing n + 1 := by
  rw [missing, Nat.count_succ, if_pos new, missing]

/-- There are at most as many terms without an image as terms. -/
theorem missing_le (map : Substitution) (n : ℕ) : map.missing n ≤ n := Nat.count_le _

/-- Terms further on do not count. -/
theorem missing_congr {other : Substitution} (same : ∀ t < n, other[t]? = map[t]?) :
    other.missing n = map.missing n := by
  induction n with
  | zero => rfl
  | succ n before =>
    have earlier := before fun t below => same t (Nat.lt_succ_of_lt below)
    unfold missing at earlier ⊢
    rw [Nat.count_succ, Nat.count_succ, earlier, same n (Nat.lt_succ_self n)]

/-- A term that gets an image is not counted any more. -/
theorem missing_insert (new : map[t]? = none) (below : t < n) :
    missing (map.insert t u) n + 1 = map.missing n := by
  have other (x : TermId) (different : x ≠ t) : (map.insert t u)[x]? = map[x]? := by
    rw [Std.HashMap.getElem?_insert, if_neg (by simpa using different.symm)]
  induction n with
  | zero => cases below
  | succ n before =>
    rcases Nat.lt_succ_iff_lt_or_eq.mp below with earlier | rfl
    · have rest := before earlier
      unfold missing at rest ⊢
      rw [Nat.count_succ, Nat.count_succ, ← rest, other n (Nat.ne_of_gt earlier)]
      omega
    · have rest : missing (map.insert t u) t = map.missing t :=
        missing_congr fun x less => other x (Nat.ne_of_lt less)
      unfold missing at rest ⊢
      rw [Nat.count_succ, Nat.count_succ, rest, if_pos new, if_neg (by simp)]

end Substitution
end Stratagem
