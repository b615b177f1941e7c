import Stratagem.Proofs.Term.Substitution

/-!
# Terms in which a constant does not occur

The walk over subterms enters each term once and marks it before its arguments. It marks every term
that occurs in the one it starts from: those that are marked but not yet left stand above the term
that is entered. The search for a term marks terms too; what it has not found yet occurs, if it
does, in a term that is still to be looked into. A well-sorted term in which a constant does not
occur is one over the other constants.
-/
namespace Stratagem

namespace Walk

variable {before after third : Walk} {s : Store} {t a : TermId} {limit : ℕ}

/-- The terms that occur in a term are entered. -/
def Covers (s : Store) (w : Walk) (t : TermId) : Prop := ∀ c, s.Occurs c t → w.seen.contains c

/-- With every term that was entered and stands before a position, the terms that occur in it were
entered. -/
def Complete (s : Store) (w : Walk) (limit : ℕ) : Prop :=
  ∀ u < limit, w.seen.contains u → w.Covers s u

/-- One walk goes on from another, and enters only terms up to a position. -/
structure Continues (before after : Walk) (t : TermId) : Prop where
  /-- What was entered stays entered. -/
  stays : ∀ u, before.seen.contains u → after.seen.contains u
  /-- Terms entered now stand at most at the position. -/
  new : ∀ u, after.seen.contains u → before.seen.contains u ∨ u ≤ t

/-- A walk that goes on from another one covers what that one covers. -/
theorem Covers.mono (covers : before.Covers s a) (further : before.Continues after t) :
    after.Covers s a := fun c occurs => further.stays c (covers c occurs)

/-- A walk goes on from itself. -/
theorem Continues.refl (w : Walk) (t : TermId) : w.Continues w t :=
  ⟨fun _ entered => entered, fun _ entered => .inl entered⟩

/-- Walks go on one after the other. -/
theorem Continues.trans {b : TermId} (early : before.Continues after a)
    (late : after.Continues third b) (first : a ≤ t) (second : b ≤ t) :
    before.Continues third t where
  stays u entered := late.stays u (early.stays u entered)
  new u entered := by
    obtain old | small := late.new u entered
    · exact (early.new u old).imp id (·.trans first)
    · exact .inr (small.trans second)

/-- A walk keeps what was left before, and leaves all that it enters. -/
structure Leaves (before after : Walk) : Prop where
  /-- What was left stays left. -/
  stays : ∀ u ∈ before.out, u ∈ after.out
  /-- What is entered now is left. -/
  left : ∀ u, after.seen.contains u → before.seen.contains u ∨ u ∈ after.out

/-- A walk leaves nothing that it does not enter. -/
theorem Leaves.refl (w : Walk) : w.Leaves w := ⟨fun _ member => member, fun _ entered => .inl entered⟩

/-- Walks one after the other leave all that they enter. -/
theorem Leaves.trans (early : before.Leaves after) (late : after.Leaves third) :
    before.Leaves third where
  stays u member := late.stays u (early.stays u member)
  left u entered := by
    obtain old | now := late.left u entered
    · exact (early.left u old).imp id (late.stays u)
    · exact .inr now

/-- What a walk from a term does. -/
structure Done (s : Store) (before after : Walk) (t : TermId) (limit : ℕ) : Prop where
  /-- The walk goes on from the one before. -/
  continues : before.Continues after t
  /-- What was entered is covered. -/
  complete : after.Complete s limit
  /-- The term is covered. -/
  covers : after.Covers s t

end Walk

namespace Store

open Walk

variable {s : Store} {c t : TermId} {limit : ℕ}

/-- A walk goes on from the one before. -/
theorem walk_continues (s : Store) (depth : ℕ) (w : Walk) (t : TermId) :
    w.Continues (s.walk depth w t) t := by
  induction depth generalizing w t with
  | zero => exact .refl w t
  | succ depth deeper =>
    rw [walk]
    split
    · exact .refl w t
    have further := List.foldlRecOn (motive := fun later : Walk =>
        Walk.Continues { w with seen := w.seen.insert t } later t) (s.args t) (s.walk depth)
      (.refl _ t) fun later known a member =>
        known.trans (deeper later a) (Nat.le_refl t) (Nat.le_of_lt (lt_of_mem_args member))
    refine ⟨fun u entered => further.stays u ?_, fun u entered => ?_⟩
    · rw [Std.HashSet.contains_insert, entered, Bool.or_true]
    · obtain old | small := further.new u entered
      · rw [Std.HashSet.contains_insert, Bool.or_eq_true, beq_iff_eq] at old
        obtain rfl | older := old
        · exact .inr (Nat.le_refl _)
        · exact .inl older
      · exact .inr small

/-- The walk goes through the arguments one after the other. -/
theorem foldl_done (visit : Walk → TermId → Walk)
    (each : ∀ (w : Walk) a, a < t → w.Complete s t → w.Done s (visit w a) a t) (args : List TermId)
    (below : ∀ a ∈ args, a < t) {w : Walk} (complete : w.Complete s t) :
    w.Continues (args.foldl visit w) t ∧ (args.foldl visit w).Complete s t ∧
      ∀ a ∈ args, (args.foldl visit w).Covers s a := by
  induction args generalizing w with
  | nil => exact ⟨.refl w t, complete, nofun⟩
  | cons a rest tail =>
    obtain ⟨small, smaller⟩ := List.forall_mem_cons.mp below
    have here := each w a small complete
    obtain ⟨further, whole, covers⟩ := tail smaller here.complete
    refine ⟨here.continues.trans further (Nat.le_of_lt small) (Nat.le_refl t), whole, ?_⟩
    exact List.forall_mem_cons.mpr ⟨here.covers.mono further, covers⟩

/-- The walk from a term covers the term. -/
theorem walk_done {depth : ℕ} {w : Walk} (deep : t < depth) (inside : t < limit)
    (complete : w.Complete s limit) : w.Done s (s.walk depth w t) t limit := by
  induction depth generalizing t limit w with
  | zero => exact absurd deep (Nat.not_lt_zero t)
  | succ depth deeper =>
    have continues := s.walk_continues (depth + 1) w t
    rw [walk] at continues ⊢
    by_cases entered : w.seen.contains t
    · rw [if_pos entered]
      exact ⟨.refl w t, complete, complete t inside entered⟩
    rw [if_neg entered] at continues ⊢
    have started : Walk.Complete s { w with seen := w.seen.insert t } t := by
      intro u below there c occurs
      rw [Std.HashSet.contains_insert, Bool.or_eq_true, beq_iff_eq] at there ⊢
      obtain rfl | older := there
      · exact absurd below (Nat.lt_irrefl _)
      · exact .inr (complete u (below.trans inside) older c occurs)
    obtain ⟨further, whole, covers⟩ := foldl_done (s.walk depth)
      (fun w a below complete => deeper (below.trans_le (Nat.le_of_lt_succ deep)) below complete)
      (s.args t) (fun a => lt_of_mem_args) started
    dsimp only at continues ⊢
    generalize (s.args t).foldl (s.walk depth) { w with seen := w.seen.insert t } = final at *
    have here : final.seen.contains t := further.stays t Std.HashSet.contains_insert_self
    have all : final.Covers s t := by
      intro c occurs
      obtain rfl | ⟨a, member, below⟩ := occurs.cases
      · exact here
      · exact covers a member c below
    refine ⟨continues, fun u small there => ?_, all⟩
    obtain below | rfl | above := Nat.lt_trichotomy u t
    · exact whole u below there
    · exact all
    · obtain old | bad := continues.new u there
      · exact (complete u small old).mono continues
      · exact absurd bad (Nat.not_le_of_lt above)

/-- Where the arguments of terms that were looked into were looked into or are still to be, a term
that was not found yet occurs in one that is still to be looked into if it occurs in one that was. -/
theorem Occurs.pending {seen : Std.HashSet TermId} {pending : List TermId} (occurs : s.Occurs c t)
    (closed : ∀ u, seen.contains u → u ≠ c ∧ ∀ a ∈ s.args u, seen.contains a ∨ a ∈ pending)
    (looked : seen.contains t) : ∃ a ∈ pending, ¬seen.contains a ∧ s.Occurs c a := by
  induction occurs with
  | here => exact absurd rfl (closed c looked).1
  | @there a t member below deeper =>
    by_cases before : seen.contains a
    · exact deeper before
    · exact ⟨a, ((closed t looked).2 a member).resolve_left before, before, below⟩

/-- Looking into terms finds a term if it occurs in one of them. -/
theorem occursAmong_iff {seen : Std.HashSet TermId} {pending : List TermId}
    (closed : ∀ u, seen.contains u → u ≠ c ∧ ∀ a ∈ s.args u, seen.contains a ∨ a ∈ pending) :
    s.occursAmong c pending seen = true ↔ ∃ t ∈ pending, s.Occurs c t := by
  fun_induction occursAmong s c pending seen with
  | case1 => simp
  | case2 pending seen => simp [Occurs.here]
  | case3 t pending seen differ looked later =>
    simp only [List.mem_cons, exists_eq_or_imp]
    rw [later]
    · refine ⟨.inr, fun known => known.elim (fun occurs => ?_) id⟩
      obtain ⟨a, member, new, below⟩ := occurs.pending closed looked
      obtain rfl | rest := List.mem_cons.mp member
      · exact absurd looked new
      · exact ⟨a, rest, below⟩
    · refine fun u known => ⟨(closed u known).1, fun a member => ?_⟩
      obtain old | there := (closed u known).2 a member
      · exact .inl old
      · obtain rfl | rest := List.mem_cons.mp there
        · exact .inl looked
        · exact .inr rest
  | case4 t pending seen differ new later =>
    simp only [List.mem_cons, exists_eq_or_imp]
    rw [later]
    · have inside : s.Occurs c t ↔ ∃ a ∈ s.args t, s.Occurs c a :=
        ⟨fun occurs => occurs.cases.resolve_left (Ne.symm differ),
          fun ⟨_, member, below⟩ => .there member below⟩
      simp only [inside, List.mem_append, List.mem_reverse, or_and_right, exists_or]
    · intro u known
      rw [Std.HashSet.contains_insert, Bool.or_eq_true, beq_iff_eq] at known
      simp only [Std.HashSet.contains_insert, Bool.or_eq_true, beq_iff_eq, List.mem_append,
        List.mem_reverse]
      obtain rfl | old := known
      · exact ⟨differ, fun a member => .inr (.inl member)⟩
      · refine ⟨(closed u old).1, fun a member => ?_⟩
        obtain looked | there := (closed u old).2 a member
        · exact .inl (.inr looked)
        · obtain rfl | rest := List.mem_cons.mp there
          · exact .inl (.inl rfl)
          · exact .inr (.inr rest)

/-- A term is found in another exactly if it occurs there. -/
theorem occurs_iff : s.occurs c t = true ↔ s.Occurs c t := by
  rw [occurs, occursAmong_iff (by simp)]
  simp

/-- What occurs in a term is found to do so. -/
theorem Occurs.occurs (known : s.Occurs c t) : s.occurs c t = true := occurs_iff.mpr known

/-- A walk over subterms leaves all terms that it enters. -/
theorem walk_leaves (s : Store) (depth : ℕ) (w : Walk) (t : TermId) :
    w.Leaves (s.walk depth w t) := by
  induction depth generalizing w t with
  | zero => exact .refl w
  | succ depth deeper =>
    rw [walk]
    split
    · exact .refl w
    have arguments := List.foldlRecOn (motive := fun later : Walk =>
        Walk.Leaves { w with seen := w.seen.insert t } later) (s.args t) (s.walk depth) (.refl _)
      fun later known a _ => known.trans (deeper later a)
    dsimp only
    generalize (s.args t).foldl (s.walk depth) { w with seen := w.seen.insert t } = final at *
    refine ⟨fun u member => Array.mem_push_of_mem _ (arguments.stays u member), fun u entered => ?_⟩
    obtain started | left := arguments.left u entered
    · rw [Std.HashSet.contains_insert, Bool.or_eq_true, beq_iff_eq] at started
      obtain rfl | older := started
      · exact .inr Array.mem_push_self
      · exact .inl older
    · exact .inr (Array.mem_push_of_mem _ left)

/-- What occurs in one of several terms is among their subterms. -/
theorem mem_subtermsOfAll {roots : List TermId} (inside : ∀ r ∈ roots, r < s.size)
    (member : t ∈ roots) (occurs : s.Occurs c t) : c ∈ s.subtermsOfAll roots := by
  have complete : Walk.Complete s {} s.size := by
    intro u _ entered
    rw [Std.HashSet.contains_empty] at entered
    cases entered
  obtain ⟨_, _, covers⟩ := foldl_done (fun w t => s.walk (t + 1) w t)
    (fun w a below complete => walk_done (Nat.lt_succ_self a) below complete) roots inside complete
  have leaves := List.foldlRecOn (motive := Walk.Leaves {}) roots
    (fun w t => s.walk (t + 1) w t) (.refl {}) fun w known a _ => known.trans (s.walk_leaves _ w a)
  obtain old | left := leaves.left c (covers t member c occurs)
  · rw [Std.HashSet.contains_empty] at old
    cases old
  · exact Array.mem_toList_iff.mpr left

/-- A walk leaves what was left before and what occurs in the term. -/
theorem walk_left {depth : ℕ} {w : Walk} {c : TermId} (left : c ∈ (s.walk depth w t).out) :
    c ∈ w.out ∨ s.Occurs c t := by
  induction depth generalizing w t with
  | zero => exact .inl left
  | succ depth deeper =>
    rw [walk] at left
    split at left
    · exact .inl left
    · obtain there | rfl := Array.mem_push.mp left
      · have arguments := List.foldlRecOn (motive := fun later : Walk =>
            c ∈ later.out → c ∈ w.out ∨ s.Occurs c t) (s.args t) (s.walk depth)
          (b := { w with seen := w.seen.insert t }) Or.inl fun later known a member left => by
            obtain old | below := deeper left
            · exact known old
            · exact .inr (.there member below)
        exact arguments there
      · exact .inr .here

/-- The subterms of several terms are what occurs in one of them. -/
theorem mem_subtermsOfAll_iff {roots : List TermId} (inside : ∀ r ∈ roots, r < s.size)
    {c : TermId} : c ∈ s.subtermsOfAll roots ↔ ∃ r ∈ roots, s.Occurs c r := by
  constructor
  · intro member
    have found := List.foldlRecOn (motive := fun later : Walk =>
        c ∈ later.out → ∃ r ∈ roots, s.Occurs c r) roots (fun w t => s.walk (t + 1) w t)
      (b := {}) (fun left => absurd left (Array.not_mem_empty c))
      fun later known r root left => by
        obtain old | occurs := walk_left left
        · exact known old
        · exact ⟨r, root, occurs⟩
    exact found (Array.mem_toList_iff.mp member)
  · rintro ⟨r, root, occurs⟩
    exact mem_subtermsOfAll inside root occurs

/-- What occurs in what occurs in a term occurs in the term. -/
theorem Occurs.trans {c u : TermId} (below : s.Occurs c u) (occurs : s.Occurs u t) :
    s.Occurs c t := by
  induction occurs with
  | here => exact below
  | there member _ deeper => exact .there member deeper

/-- What holds of a term and passes on to arguments holds of what occurs in the term. -/
theorem Occurs.of_closed {c : TermId} {p : TermId → Prop} (occurs : s.Occurs c t)
    (closed : ∀ u, p u → ∀ a ∈ s.args u, p a) (holds : p t) : p c := by
  induction occurs with
  | here => exact holds
  | there member _ deeper => exact deeper (closed _ holds _ member)

/-- Only a term itself occurs in it if it has no arguments. -/
theorem occurs_of_args_nil {c t : TermId} (empty : s.args t = []) (other : c ≠ t) :
    s.occurs c t = false := by
  rw [← Bool.not_eq_true, occurs_iff]
  intro known
  obtain same | ⟨a, member, _⟩ := known.cases
  · exact other same
  · rw [empty] at member
    cases member

end Store

/-- The signature without a constant. -/
def Signature.without (Γ : Signature) (name : String) (sort : TermSort) : Signature :=
  { Γ with constant := fun other o => Γ.constant other o ∧ ¬(other = name ∧ o = sort) }

/-- Terms without a constant may have it. -/
theorem Signature.without_within (Γ : Signature) (name : String) (sort : TermSort) :
    (Γ.without name sort).Within Γ := ⟨fun _ _ known => known.1, id⟩

namespace Store

variable {s : Store} {Γ Δ : Signature} {t x : TermId} {name : String} {sort : TermSort}

/-- What occurs in a well-sorted term is well-sorted. -/
theorem WellSorted.of_mem_occurs {c : TermId} (sorted : s.WellSorted Γ t) (occurs : s.Occurs c t) :
    s.WellSorted Γ c := by
  induction occurs with
  | here => exact sorted
  | there member _ below => exact below (sorted.of_mem_args member)

/-- A well-sorted term has no quantifiers. -/
theorem WellSorted.plain (sorted : s.WellSorted Γ t) : s.Plain t := fun _ occurs =>
  have known := sorted.of_mem_occurs occurs
  ⟨Terms.binders?_eq_none known, fun _ => known.args_of_var⟩

/-- A well-sorted term is one over every signature that has the constants that occur in it. -/
theorem WellSorted.of_occurs (sorted : s.WellSorted Γ t) (casts : Γ.realCasts → Δ.realCasts)
    (each : ∀ c name, s.Occurs c t → s.op c = .var name → Γ.constant name (s.sortOf c) →
      Δ.constant name (s.sortOf c)) : s.WellSorted Δ t := by
  induction sorted with
  | @intro t inside fits args smaller =>
    refine .intro inside ?_ fun a member => smaller a member fun c name below =>
      each c name (.there member below)
    by_cases var : ∃ name, s.op t = .var name
    · obtain ⟨name, head⟩ := var
      rw [head] at fits ⊢
      cases arguments : s.args t with
      | cons =>
        rw [arguments] at fits
        exact fits.elim
      | nil =>
        rw [arguments] at fits
        exact ⟨each t name .here head fits.1, fits.2⟩
    · exact fits.of_interpreted (fun name head => var ⟨name, head⟩) casts

/-- A term in which a constant does not occur is one over the other constants. -/
theorem WellSorted.without (sorted : s.WellSorted Γ t) (constant : s.node x = ⟨.var name, [], sort⟩)
    (absent : s.occurs x t = false) : s.WellSorted (Γ.without name sort) t := by
  refine sorted.of_occurs id fun c other occurs head known => ⟨known, ?_⟩
  rintro ⟨rfl, same⟩
  have leaf : s.WellSorted Γ c := sorted.of_mem_occurs occurs
  have equal : s.node c = s.node x := by
    rw [constant, ← head, ← leaf.args_of_var head, ← same]
    rfl
  obtain rfl := eq_of_node_eq leaf.inside (lt_size_of_var (congrArg Node.op constant)) equal
  rw [occurs.occurs] at absent
  cases absent

end Store

end Stratagem
