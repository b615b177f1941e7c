import Stratagem.Proofs.Steady.Reasoning
import Stratagem.Rewriting.Connective

/-!
# Connectives are steady

The rules for connectives look at their arguments, and at the members of nested conjunctions and
disjunctions; how deep they may look is limited by the size of the store, but the members of a term
stand before it, so that limit is never reached and a larger store changes nothing.
-/
namespace Stratagem.Connective

open Store (Extends Kind)
open Terms Rule

variable {K : Kind} {config : SimplifierConfig} {s after : Store} {t a b c : TermId}
  {args : List TermId}

/-- Negation. -/
theorem steady_reduceNot (inside : K.Member s a) :
    (reduceNot a).Steady config s (Outcome.Within K) := by
  refine steady_peek (fun later grown => by rw [grown.view_eq (K.inside inside)]) ?_
  split
  · exact .of_result? rfl (K.ofBool s _)
  · next view => exact .of_result? rfl (K.of_view inside view _ (by simp))
  · exact .failed

section Gathering

variable {head : Op} {unit : TermId} {flat : Bool}

/-- Members are gathered alike in a larger store and to any depth beyond the position of a term. -/
theorem gather_eq (grown : s.Extends after) {depth more : ℕ} (w : Walk) (inside : a < s.size)
    (deep : a < depth) (deeper : a < more) :
    gather after head unit flat more w a = gather s head unit flat depth w a := by
  induction depth generalizing more w a with
  | zero => exact absurd deep (Nat.not_lt_zero a)
  | succ depth step =>
    obtain ⟨more, rfl⟩ := Nat.exists_eq_succ_of_ne_zero (Nat.ne_zero_of_lt deeper)
    rw [gather, gather, grown.op_eq inside, grown.args_eq inside]
    have each (w : Walk) (b : TermId) (member : b ∈ s.args a) :
        gather after head unit flat more w b = gather s head unit flat depth w b :=
      have before := Store.lt_of_mem_args member
      step w (before.trans inside) (before.trans_le (Nat.le_of_lt_succ deep))
        (before.trans_le (Nat.le_of_lt_succ deeper))
    dsimp only
    rw [List.foldl_ext _ _ _ each]

/-- Gathered members are of the kind of the terms. -/
theorem gather_all {depth : ℕ} {w : Walk} (inside : K.Member s a)
    (known : ∀ m ∈ w.out, K.Member s m) :
    ∀ m ∈ (gather s head unit flat depth w a).out, K.Member s m := by
  induction depth generalizing w a with
  | zero => exact known
  | succ depth step =>
    rw [gather]
    split
    · exact known
    · dsimp only
      split
      · refine List.foldlRecOn (motive := fun w : Walk => ∀ m ∈ w.out, K.Member s m) (s.args a) _
          known fun w known b member => ?_
        exact step (K.of_args a inside b member) known
      · intro m member
        obtain old | rfl := Array.mem_push.mp member
        · exact known m old
        · exact inside

/-- The members of a conjunction or disjunction. -/
def gathered (head : Op) (unit : TermId) (flat : Bool) (args : List TermId) (s : Store) :
    List TermId :=
  (args.foldl (gather s head unit flat s.size) {}).out.toList

/-- The members are the same when the store has grown. -/
theorem gathered_eq (grown : s.Extends after) (inside : ∀ a ∈ args, a < s.size) :
    gathered head unit flat args after = gathered head unit flat args s := by
  unfold gathered
  rw [List.foldl_ext _ _ _ fun w a member => gather_eq grown w (inside a member) (inside a member)
    (grown.lt_size (inside a member))]

/-- The members are of the kind of the terms. -/
theorem gathered_all (inside : ∀ a ∈ args, K.Member s a) :
    ∀ m ∈ gathered head unit flat args s, K.Member s m := by
  intro m member
  refine List.foldlRecOn (motive := fun w : Walk => ∀ m ∈ w.out, K.Member s m) args _ ?_
    (fun w known a member => gather_all (inside a member) known) m (Array.mem_toList_iff.mp member)
  simp

end Gathering

/-- Complements are found alike when the store has grown. -/
theorem hasComplement_eq (grown : s.Extends after) (inside : ∀ a ∈ args, a < s.size) :
    hasComplement after args = hasComplement s args := by
  unfold hasComplement
  refine Bool.eq_iff_iff.mpr ?_
  rw [List.any_eq_true, List.any_eq_true]
  refine exists_congr fun a => and_congr_right fun member => ?_
  rw [grown.view_eq (inside a member)]

/-- The result for a conjunction or disjunction is of a kind, or it is a conjunction of terms of the
kind. -/
def Joined (K : Kind) (isAnd : Bool) (o : Outcome) (s : Store) : Prop :=
  ∀ r, o.result? = some r → K.Member s r ∨ isAnd = true ∧ s.op r = .and ∧ K.Below 1 s r

/-- The result is of a kind unless it is a conjunction that the kind is not closed under. -/
theorem Joined.within {isAnd : Bool} {o : Outcome} (joined : Joined K isAnd o s)
    (head : ∀ r, o.result? = some r → isAnd = true → s.op r = .and → K.Head .and) :
    o.Within K s := by
  cases result : o.result? with
  | none => cases o <;> first | exact .failed | cases result
  | some r =>
    obtain member | ⟨conjunction, same, below⟩ := joined r result
    · exact .of_result? result member
    · have head := head r result conjunction same
      exact .of_result? result (K.composed (K.wide_inside below.1) (same ▸ head) below.2)

/-- Conjunction and disjunction. -/
theorem steady_reduceJunction (isAnd : Bool) (inside : ∀ a ∈ args, K.Member s a) :
    (reduceJunction isAnd args).Steady config s (Joined K isAnd) := by
  unfold reduceJunction
  refine steady_read_bind (steady_peek_bind
    (fun later grown => gathered_eq grown (Kind.all_inside inside)) ?_)
  generalize found : (args.foldl (gather s _ _ _ s.size) {}).out.toList = members
  have within : ∀ m ∈ members, K.Member s m := found ▸ gathered_all inside
  split
  · exact steady_pure fun r result => Option.some.inj result ▸ .inl (K.ofBool s _)
  refine steady_peek_bind (fun later grown => hasComplement_eq grown (Kind.all_inside within)) ?_
  split
  · exact steady_pure fun r result => Option.some.inj result ▸ .inl (K.ofBool s _)
  split
  · exact steady_pure nofun
  split
  · next conjunction =>
    refine steady_lift_bind (steady_mkAnd_below within) fun r after _ known => ?_
    exact steady_pure fun u result =>
      Option.some.inj result ▸ known.imp_right fun joined => ⟨conjunction, joined⟩
  · exact steady_lift_bind (steady_mkOr within) fun r after _ known =>
      steady_pure fun u result => Option.some.inj result ▸ .inl known

/-- Conjunction. -/
theorem steady_reduceAnd (there : t < s.size) (inside : ∀ a ∈ args, K.Member s a)
    (view : s.view t = (.and, args)) (kept : config.elimAnd = false → K.Head .and) :
    (reduceAnd t args).Steady config s (Outcome.Within K) := by
  refine steady_bind (steady_reduceJunction true inside) fun outcome after grown joined => ?_
  refine steady_read_bind ?_
  split
  · next plain =>
    exact steady_pure (joined.within fun _ _ _ _ => kept (by simpa using plain))
  have known : outcome.result?.getD t < after.size ∧
      ∀ op members, after.view (outcome.result?.getD t) = (op, members) →
        ∀ m ∈ members, K.Member after m := by
    cases result : outcome.result? with
    | none =>
      refine ⟨grown.lt_size there, fun op members same => ?_⟩
      rw [Option.getD_none, grown.view_eq there, view] at same
      obtain ⟨rfl, rfl⟩ := Prod.mk.inj same
      exact grown.all_member inside
    | some r =>
      obtain member | ⟨_, _, below⟩ := joined r result
      · exact ⟨K.inside member, fun op members same => K.of_view member same⟩
      · exact ⟨K.wide_inside below.1, fun op members same => below.of_view same⟩
  refine steady_peek_bind (fun later grown => grown.view_eq known.1) ?_
  split
  · next members same =>
    refine steady_bind (steady_mapM_terms K fun m member now grown =>
      steady_lift (steady_mkNot (grown.member (known.2 _ members same m member))))
        fun negated last _ inside => ?_
    refine steady_lift_bind (steady_mkOr inside) fun joined last _ inside => ?_
    exact steady_result (steady_mkNot inside) fun _ => rfl
  · next other =>
    refine steady_pure (joined.within fun r result _ same => ?_)
    rw [result] at other
    exact absurd (congrArg (·, after.args r) same) (other (after.args r))

/-- A conjunction that is visited again. -/
theorem steady_conjunction (depth : ℕ) (inside : ∀ a ∈ args, K.Member s a) :
    ((liftM (mkAnd args) : Rule TermId) >>= fun r => pure (Outcome.revisit (depth + 1) r)).Steady
      config s (Outcome.Within K) := by
  refine steady_lift_bind (steady_mkAnd_below inside) fun r after _ known => steady_pure ?_
  obtain member | ⟨_, below⟩ := known
  · exact Kind.below_of_member member _
  · exact below.le (Nat.le_add_left 1 depth)

/-- Case distinction between booleans. -/
theorem steady_reduceBoolIte (first : K.Member s c) (second : K.Member s a)
    (third : K.Member s b) : (reduceBoolIte c a b).Steady config s (Outcome.Within K) := by
  unfold reduceBoolIte
  split
  · exact steady_pure (.of_result? rfl first)
  split
  · exact steady_result (steady_mkNot first) fun _ => rfl
  split
  · exact steady_result (steady_mkOr (by simp [*])) fun _ => rfl
  split
  · exact steady_conjunction 0 (by simp [*])
  split
  · refine steady_lift_bind (steady_mkNot first) fun negated after grown inside => ?_
    exact steady_conjunction 1 (by simp [inside, grown.member third])
  split
  · refine steady_lift_bind (steady_mkNot first) fun negated after grown inside => ?_
    exact steady_result (steady_mkOr (by simp [inside, grown.member second])) fun _ => rfl
  · exact steady_pure .failed

/-- Case distinction. -/
theorem steady_reduceIte (first : K.Member s c) (second : K.Member s a)
    (third : K.Member s b) : (reduceIte c a b).Steady config s (Outcome.Within K) := by
  unfold reduceIte
  split
  · exact steady_pure (.of_result? rfl second)
  split
  · exact steady_pure (.of_result? rfl third)
  split
  · exact steady_pure (.of_result? rfl second)
  refine steady_peek_bind (fun later grown => grown.view_eq (K.inside first)) ?_
  split
  · next view =>
    have inner := K.of_view first view
    exact steady_result (steady_mkApp K rfl (by simp_all)) fun _ => rfl
  · refine steady_peek_bind
      (fun later grown => by rw [Store.isBool, grown.sortOf_eq (K.inside second)]; rfl) ?_
    split
    · exact steady_reduceBoolIte first second third
    · exact steady_pure .failed

/-- Equality with a truth value or with a negation. -/
theorem steady_reduceIff (first : K.Member s a) (second : K.Member s b) :
    (reduceIff a b).Steady config s fun answer after => ∀ o ∈ answer, o.Within K after := by
  unfold reduceIff
  split
  · exact steady_pure fun o same => Option.some.inj same ▸ .of_result? rfl first
  split
  · refine steady_lift_bind (steady_mkNot first) fun negated after _ inside => ?_
    exact steady_pure fun o same => Option.some.inj same ▸ .of_result? rfl inside
  refine steady_peek_bind (fun later grown => grown.view_eq (K.inside second)) ?_
  split
  · refine steady_pure fun o same => ?_
    split at same
    · exact Option.some.inj same ▸ .of_result? rfl (K.ofBool s false)
    · cases same
  · exact steady_pure nofun

/-- Equality. -/
theorem steady_reduceEq (first : K.Member s a) (second : K.Member s b) :
    (reduceEq a b).Steady config s (Outcome.Within K) := by
  unfold reduceEq
  split
  · exact steady_pure (.of_result? rfl (K.ofBool s true))
  refine steady_peek_bind (fun later grown => ?_) ?_
  · simp only [Store.isValue, grown.op_eq, grown.sortOf_eq, K.inside first, K.inside second]
  split
  · exact steady_pure (.of_result? rfl (K.ofBool s false))
  refine steady_peek_bind
    (fun later grown => by rw [Store.isBool, grown.sortOf_eq (K.inside first)]; rfl) ?_
  split
  · refine steady_bind (steady_reduceIff first second) fun answer after grown within => ?_
    split
    · exact steady_pure (within _ rfl)
    · refine steady_bind (steady_reduceIff (grown.member second) (grown.member first))
        fun answer last _ within => ?_
      cases answer with
      | none => exact steady_pure .failed
      | some o => exact steady_pure (within o rfl)
  · exact steady_pure .failed

/-- Pairwise difference. -/
theorem steady_reduceDistinct (inside : ∀ a ∈ args, K.Member s a) :
    (reduceDistinct args).Steady config s (Outcome.Within K) := by
  unfold reduceDistinct
  split
  · exact steady_pure (.of_result? rfl (K.ofBool s true))
  split
  · exact steady_pure (.of_result? rfl (K.ofBool s false))
  split
  · refine steady_lift_bind (steady_mkApp K rfl inside) fun equal after _ inside => ?_
    exact steady_result (steady_mkNot inside) fun _ => rfl
  · refine steady_peek_bind (fun later grown => ?_) ?_
    · refine Bool.eq_iff_iff.mpr ?_
      rw [List.all_eq_true, List.all_eq_true]
      refine forall₂_congr fun a member => ?_
      rw [Store.isValue, Store.isValue, grown.op_eq (K.inside (inside a member))]
    split
    · exact steady_pure (.of_result? rfl (K.ofBool s true))
    · exact steady_pure .failed

/-- The rules for connectives. -/
theorem steady_reduce (ready : K.Below 1 s t) (kept : config.elimAnd = false → K.Head .and) :
    (reduce t).Steady config s (Outcome.Within K) := by
  have there : t < s.size := K.wide_inside ready.1
  refine steady_peek_bind (fun later grown => grown.view_eq there) ?_
  have args {op : Op} {args : List TermId} (view : s.view t = (op, args)) :
      ∀ a ∈ args, K.Member s a := ready.of_view view
  split
  · next view => exact steady_reduceNot (args view _ (by simp))
  · next view => exact steady_reduceAnd there (args view) view kept
  · next view =>
    refine (steady_reduceJunction false (args view)).imp fun o after _ joined => ?_
    exact joined.within nofun
  · next a b view =>
    refine steady_lift_bind (steady_mkNot (args view a (by simp)))
      fun negated after grown known => ?_
    have second := grown.member (args view b (by simp))
    exact steady_result (steady_mkOr (by simp [known, second])) fun _ => rfl
  · next view =>
    refine steady_lift_bind (steady_mkApp K rfl (args view)) fun equal after _ known => ?_
    exact steady_result (steady_mkNot known) fun _ => rfl
  · next view =>
    exact steady_reduceIte (args view _ (by simp)) (args view _ (by simp)) (args view _ (by simp))
  · next view => exact steady_reduceEq (args view _ (by simp)) (args view _ (by simp))
  · next view => exact steady_reduceDistinct (args view)
  · exact steady_pure .failed

end Stratagem.Connective
