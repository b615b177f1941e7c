import Mathlib.Order.Bounds.Basic
import Stratagem.Proofs.Term.Occurrence

/-!
# The subterms of a term, in order

Working off a list of tasks amounts to a recursive walk: entering a term comes to the walk from it,
whatever is left to do after it. Where the walk begins, every term up to there that was entered was
left, since those that are still to be left stand above. So arguments are left before the term, and
no term is left twice. Over a list in this order the heights of all terms are found in one pass.
-/
namespace Stratagem

namespace Store

/-- Every term of a list comes after its arguments. -/
def ArgumentsFirst (s : Store) (terms : List TermId) : Prop :=
  ∀ before u after, terms = before ++ u :: after → ∀ a ∈ s.args u, a ∈ before

/-- A path down from a term, through arguments, to a term without arguments. -/
inductive Branch (s : Store) : TermId → List TermId → Prop
  /-- A term without arguments is a path. -/
  | leaf {t : TermId} (none : s.args t = []) : Branch s t [t]
  /-- A path from an argument goes on from the term. -/
  | step {t a : TermId} {path : List TermId} (member : a ∈ s.args t) (below : Branch s a path) :
    Branch s t (t :: path)

/-- The longest path down from a term has this many terms. -/
def IsHeight (s : Store) (t : TermId) (height : ℕ) : Prop :=
  IsGreatest {n | ∃ path, s.Branch t path ∧ path.length = n} height

end Store

/-- A walk has left each term once, after its arguments, and none that it did not enter. -/
structure Walk.Orderly (s : Store) (w : Walk) : Prop where
  /-- No term is left twice. -/
  distinct : w.out.toList.Nodup
  /-- A term that is left was entered. -/
  entered : ∀ u ∈ w.out, w.seen.contains u
  /-- Arguments are left before the term. -/
  ordered : s.ArgumentsFirst w.out.toList

namespace Store

open Walk

variable {s : Store} {w : Walk} {t : TermId} {depth : ℕ} {args terms : List TermId}

/-- A walk from a term that was entered before does nothing. -/
theorem walk_of_seen (seen : w.seen.contains t) : s.walk depth w t = w := by
  cases depth with
  | zero => rfl
  | succ depth => rw [walk, if_pos seen]

/-- Where entering a term comes to the walk from it, entering terms in turn comes to walking through
them in turn. Those that were entered before may be left out, as a walk from them does nothing. -/
theorem perform_enter_all (keep : TermId → Bool) (tasks : List Task)
    (enter : ∀ a ∈ args, ∀ tasks w,
      s.perform (.enter a :: tasks) w = s.perform tasks (s.walk depth w a))
    (dropped : ∀ a ∈ args, keep a = false → w.seen.contains a) :
    s.perform ((args.filter keep).map .enter ++ tasks) w =
      s.perform tasks (args.foldl (s.walk depth) w) := by
  induction args generalizing w with
  | nil => rfl
  | cons a rest later =>
    obtain ⟨first, others⟩ := List.forall_mem_cons.mp enter
    obtain ⟨here, there⟩ := List.forall_mem_cons.mp dropped
    have grown : ∀ b ∈ rest, keep b = false → (s.walk depth w a).seen.contains b :=
      fun b member out => (s.walk_continues depth w a).stays b (there b member out)
    rw [List.foldl_cons, ← later others grown]
    cases kept : keep a with
    | true => rw [List.filter_cons_of_pos kept, List.map_cons, List.cons_append, first]
    | false => rw [List.filter_cons_of_neg (by simp [kept]), walk_of_seen (here kept)]

/-- Entering a term comes to the walk from it. -/
theorem perform_enter (deep : t < depth) (tasks : List Task) (w : Walk) :
    s.perform (.enter t :: tasks) w = s.perform tasks (s.walk depth w t) := by
  induction depth generalizing t tasks w with
  | zero => exact absurd deep (Nat.not_lt_zero t)
  | succ depth deeper =>
    rw [perform, walk]
    split
    · rfl
    · dsimp only
      rw [perform_enter_all _ _ (fun a member => deeper ?_) (fun a _ out => ?_), perform]
      · exact (lt_of_mem_args member).trans_le (Nat.le_of_lt_succ deep)
      · rwa [Bool.not_eq_false'] at out

/-- The subterms of a term are what the walk from it leaves. -/
theorem subterms_eq (s : Store) (t : TermId) :
    s.subterms t = (s.walk (t + 1) {} t).out.toList := by
  rw [subterms, perform_enter (Nat.lt_succ_self t), perform]

/-- A term comes after terms among which are its arguments. -/
theorem ArgumentsFirst.concat (first : s.ArgumentsFirst terms) (args : ∀ a ∈ s.args t, a ∈ terms) :
    s.ArgumentsFirst (terms ++ [t]) := by
  intro before u after whole
  obtain rfl | ⟨rest, last, rfl⟩ := List.eq_nil_or_concat after
  · obtain ⟨rfl, same⟩ := List.append_inj' whole rfl
    obtain rfl := List.singleton_inj.mp same
    exact args
  · rw [List.concat_eq_append, ← List.cons_append, ← List.append_assoc] at whole
    exact first before u rest (List.append_inj' whole rfl).1

/-- With a term of the list its arguments are in it. -/
theorem ArgumentsFirst.mem_args (first : s.ArgumentsFirst terms) (member : t ∈ terms) :
    ∀ a ∈ s.args t, a ∈ terms := by
  obtain ⟨before, after, rfl⟩ := List.append_of_mem member
  exact fun a argument => List.mem_append_left _ (first before t after rfl a argument)

/-- The terms before the last one of a list. -/
theorem ArgumentsFirst.of_concat (first : s.ArgumentsFirst (terms ++ [t])) :
    s.ArgumentsFirst terms ∧ ∀ a ∈ s.args t, a ∈ terms := by
  refine ⟨fun before u after whole => first before u (after ++ [t]) ?_, first terms t [] rfl⟩
  rw [whole, List.append_assoc, List.cons_append]

end Store

namespace Walk.Orderly

variable {s : Store} {w : Walk} {t : TermId}

/-- Entering a term leaves nothing. -/
theorem enter (orderly : w.Orderly s) (t : TermId) :
    Walk.Orderly s { w with seen := w.seen.insert t } where
  distinct := orderly.distinct
  entered u member := by rw [Std.HashSet.contains_insert, orderly.entered u member, Bool.or_true]
  ordered := orderly.ordered

/-- A term that was entered is left after its arguments. -/
theorem leave (orderly : w.Orderly s) (entered : w.seen.contains t) (absent : t ∉ w.out)
    (args : ∀ a ∈ s.args t, a ∈ w.out) : Walk.Orderly s { w with out := w.out.push t } where
  distinct := by
    rw [Array.toList_push, List.nodup_append]
    refine ⟨orderly.distinct, List.nodup_singleton t, fun u before v here same => ?_⟩
    obtain rfl := List.mem_singleton.mp here
    exact absent (Array.mem_toList_iff.mp (same ▸ before))
  entered u member := by
    obtain before | rfl := Array.mem_push.mp member
    · exact orderly.entered u before
    · exact entered
  ordered := by
    rw [Array.toList_push]
    exact orderly.ordered.concat fun a member => Array.mem_toList_iff.mpr (args a member)

end Walk.Orderly

namespace Store

variable {s : Store} {w : Walk} {t : TermId} {depth : ℕ} {args terms : List TermId}

/-- Walking through terms keeps what was entered. -/
theorem seen_foldl_walk {u : TermId} (seen : w.seen.contains u) :
    (args.foldl (s.walk depth) w).seen.contains u :=
  List.foldlRecOn (motive := fun later : Walk => later.seen.contains u) args _ seen
    fun later known a _ => (s.walk_continues depth later a).stays u known

/-- A walk from a term enters the term. -/
theorem seen_walk (deep : t < depth) : (s.walk depth w t).seen.contains t := by
  obtain ⟨depth, rfl⟩ := Nat.exists_eq_succ_of_ne_zero (Nat.ne_zero_of_lt deep)
  rw [walk]
  split
  · assumption
  · exact seen_foldl_walk Std.HashSet.contains_insert_self

/-- Walking through terms enters them. -/
theorem seen_foldl_walk_of_mem {a : TermId} (deep : ∀ a ∈ args, a < depth) (member : a ∈ args) :
    (args.foldl (s.walk depth) w).seen.contains a := by
  obtain ⟨before, after, rfl⟩ := List.append_of_mem member
  rw [List.foldl_append, List.foldl_cons]
  exact seen_foldl_walk (seen_walk (deep a member))

/-- A walk from a term leaves terms in order if those up to the term that were entered were left. -/
theorem walk_orderly (deep : t < depth) (orderly : w.Orderly s)
    (left : ∀ u ≤ t, w.seen.contains u → u ∈ w.out) : (s.walk depth w t).Orderly s := by
  induction depth generalizing t w with
  | zero => exact orderly
  | succ depth deeper =>
    rw [walk]
    split
    · exact orderly
    next new =>
    have shallow : ∀ a ∈ s.args t, a < depth := fun a member =>
      (lt_of_mem_args member).trans_le (Nat.le_of_lt_succ deep)
    have begun : ∀ u < t, (w.seen.insert t).contains u → u ∈ w.out := by
      intro u below there
      rw [Std.HashSet.contains_insert, Bool.or_eq_true, beq_iff_eq] at there
      exact left u (Nat.le_of_lt below) (there.resolve_left (Nat.ne_of_gt below))
    -- Along the arguments, everything below the term that was entered is left, and the term is not.
    obtain ⟨known, below, absent⟩ : ((s.args t).foldl (s.walk depth)
        { w with seen := w.seen.insert t }).Orderly s ∧ _ := by
      refine List.foldlRecOn (motive := fun later : Walk => later.Orderly s ∧
        (∀ u < t, later.seen.contains u → u ∈ later.out) ∧ t ∉ later.out) _ _
        ⟨orderly.enter t, begun, fun member => new (orderly.entered t member)⟩ ?_
      intro later along a member
      obtain ⟨known, below, absent⟩ := along
      have less := lt_of_mem_args member
      have leaves := s.walk_leaves depth later a
      refine ⟨deeper (shallow a member) known fun u small => below u (small.trans_lt less),
        fun u small there => ?_, fun there => ?_⟩
      · obtain old | now := leaves.left u there
        · exact leaves.stays u (below u small old)
        · exact now
      · obtain old | occurs := walk_left there
        · exact absent old
        · exact absurd occurs.le (Nat.not_le_of_lt less)
    refine known.leave (seen_foldl_walk Std.HashSet.contains_insert_self) absent ?_
    exact fun a member => below a (lt_of_mem_args member) (seen_foldl_walk_of_mem shallow member)

/-- A walk that begins leaves the subterms in order. -/
theorem walk_empty_orderly (s : Store) (t : TermId) : (s.walk (t + 1) {} t).Orderly s := by
  refine walk_orderly (Nat.lt_succ_self t) ⟨List.nodup_nil, ?_, ?_⟩ ?_
  · exact fun u member => absurd member (Array.not_mem_empty u)
  · exact fun before u after whole => absurd whole.symm (by simp)
  · intro u _ entered
    rw [Std.HashSet.contains_empty] at entered
    cases entered

/-- The subterms of a term are what occurs in it. -/
theorem mem_subterms_iff {u : TermId} : u ∈ s.subterms t ↔ s.Occurs u t := by
  rw [subterms_eq]
  constructor
  · intro left
    exact (walk_left (Array.mem_toList_iff.mp left)).resolve_left (Array.not_mem_empty u)
  · intro occurs
    have root : t ∈ (s.walk (t + 1) {} t).out :=
      ((s.walk_leaves (t + 1) {} t).left t (seen_walk (Nat.lt_succ_self t))).resolve_left (by simp)
    exact occurs.of_closed (fun _ => (s.walk_empty_orderly t).ordered.mem_args)
      (Array.mem_toList_iff.mpr root)

/-- The greatest of numbers on top of another. -/
theorem isGreatest_foldl_max (f : TermId → ℕ) (args : List TermId) (most : ℕ) :
    IsGreatest {n | n = most ∨ ∃ a ∈ args, n = f a}
      (args.foldl (fun most a => Nat.max most (f a)) most) := by
  induction args generalizing most with
  | nil => simp [IsGreatest, upperBounds]
  | cons a rest later =>
    obtain ⟨reached, largest⟩ := later (Nat.max most (f a))
    have start := largest (.inl rfl)
    refine ⟨?_, ?_⟩
    · obtain here | ⟨b, member, there⟩ := reached
      · obtain old | new := max_choice most (f a)
        · exact .inl (here.trans old)
        · exact .inr ⟨a, List.mem_cons_self, here.trans new⟩
      · exact .inr ⟨b, List.mem_cons_of_mem a member, there⟩
    · rintro n (rfl | ⟨b, member, rfl⟩)
      · exact (Nat.le_max_left n (f a)).trans start
      · obtain rfl | other := List.mem_cons.mp member
        · exact (Nat.le_max_right most (f b)).trans start
        · exact largest (.inr ⟨b, other, rfl⟩)

/-- A term is one higher than the highest of its arguments. -/
theorem isHeight_heightOver {heights : Std.HashMap TermId ℕ}
    (known : ∀ a ∈ s.args t, s.IsHeight a (heights.getD a 0)) :
    s.IsHeight t (s.heightOver heights t) := by
  obtain ⟨reached, largest⟩ := isGreatest_foldl_max (heights.getD · 0) (s.args t) 0
  unfold heightOver
  generalize (s.args t).foldl (fun most a => Nat.max most (heights.getD a 0)) 0 = most at *
  refine ⟨?_, ?_⟩
  · cases empty : s.args t with
    | nil =>
      rw [empty] at reached
      obtain rfl := reached.resolve_right nofun
      exact ⟨[t], .leaf empty, rfl⟩
    | cons a rest =>
      have member : a ∈ s.args t := empty ▸ List.mem_cons_self
      -- The greatest height is that of an argument also if it is zero.
      obtain ⟨b, argument, rfl⟩ : ∃ b ∈ s.args t, most = heights.getD b 0 := by
        obtain rfl | highest := reached
        · exact ⟨a, member, (Nat.le_zero.mp (largest (.inr ⟨a, member, rfl⟩))).symm⟩
        · exact highest
      obtain ⟨path, below, size⟩ := (known b argument).1
      exact ⟨t :: path, .step argument below, by rw [List.length_cons, size]⟩
  · rintro n ⟨path, branch, rfl⟩
    cases branch with
    | leaf => exact Nat.succ_le_succ (Nat.zero_le most)
    | step member below =>
      have short := (known _ member).2 ⟨_, below, rfl⟩
      exact Nat.succ_le_succ (short.trans (largest (.inr ⟨_, member, rfl⟩)))

/-- One pass over terms, each after its arguments, finds their heights. -/
theorem isHeight_foldl (first : s.ArgumentsFirst terms) : ∀ u ∈ terms, s.IsHeight u
    ((terms.foldl (fun heights u => heights.insert u (s.heightOver heights u))
      (∅ : Std.HashMap TermId ℕ)).getD u 0) := by
  induction terms using List.reverseRecOn with
  | nil => exact nofun
  | append_singleton before t later =>
    obtain ⟨earlier, arguments⟩ := first.of_concat
    have known := later earlier
    have here := isHeight_heightOver fun a member => known a (arguments a member)
    intro u member
    rw [List.foldl_append, List.foldl_cons, List.foldl_nil, Std.HashMap.getD_insert]
    split
    · next same =>
      obtain rfl := eq_of_beq same
      exact here
    · next differ =>
      rw [List.mem_append, List.mem_singleton] at member
      exact known u (member.resolve_right fun same => differ (by simp [same]))

/-- The subterms that are collected are the terms that occur in the root, each once and after its
arguments. A term is found in the root exactly if it is among them. The depth of the root is the
number of terms on a longest path down from it, which is one if it has no arguments. -/
theorem subterms_enumerate (s : Store) (root : TermId) :
    (s.subterms root).Nodup ∧ (∀ u, u ∈ s.subterms root ↔ s.Occurs u root) ∧
    (∀ before u after, s.subterms root = before ++ u :: after → ∀ a ∈ s.args u, a ∈ before) ∧
    (∀ u, s.occurs u root = true ↔ u ∈ s.subterms root) ∧
    IsGreatest {n | ∃ path, s.Branch root path ∧ path.length = n} (s.termDepth root) := by
  have orderly := s.walk_empty_orderly root
  have first : s.ArgumentsFirst (s.subterms root) := by
    rw [subterms_eq]
    exact orderly.ordered
  refine ⟨?_, fun u => mem_subterms_iff, first, fun u => occurs_iff.trans mem_subterms_iff.symm, ?_⟩
  · rw [subterms_eq]
    exact orderly.distinct
  · exact isHeight_foldl first root (mem_subterms_iff.mpr .here)

end Store
end Stratagem
