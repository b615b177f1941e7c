import Stratagem.Proofs.Steady.Sum
import Stratagem.Rewriting.Circular
import Stratagem.Rewriting.Division

/-!
# Division, casts and functions are steady

The rules for division, remainders, casts, and circular and hyperbolic functions look at literals,
casts and multiples of pi among the arguments of their arguments.
-/
namespace Stratagem.Arithmetic

open Store (Extends Kind)
open Terms Rule

variable {K : Kind} {config : SimplifierConfig} {s after : Store} {t a b : TermId}

/-- The value of an integral literal is the same when the store has grown. -/
theorem intValue?_eq (inside : K.Member s t) (later : Store) (grown : s.Extends later) :
    intValue? later t = intValue? s t := by
  rw [intValue?, intValue?, grown.numeral?_eq (K.inside inside)]

/-- A product with a literal is the same when the store has grown. -/
theorem scaledFactor?_eq (inside : K.Member s t) (later : Store) (grown : s.Extends later) :
    scaledFactor? later t = scaledFactor? s t := by
  unfold scaledFactor?
  rw [grown.view_eq (K.inside inside)]
  split
  · next c f view => rw [grown.numeral?_eq (K.inside (K.of_view inside view c (by simp)))]
  · rfl

/-- The other factor of a product with a literal is of the kind of the product. -/
theorem scaledFactor?_member {r : ℚ} {f : TermId} (inside : K.Member s t)
    (found : scaledFactor? s t = some (r, f)) : K.Member s f := by
  unfold scaledFactor? at found
  split at found
  · next c g view =>
    obtain ⟨_, _, same⟩ := Option.map_eq_some_iff.mp found
    obtain ⟨rfl, rfl⟩ := Prod.mk.inj same
    exact K.of_view inside view g (by simp)
  · cases found

/-- The quotient of two products with literals. -/
theorem steady_divideProducts (first : K.Member s a) (second : K.Member s b) :
    (divideProducts a b).Steady config s (Outcome.Within K) := by
  refine steady_peek_bind (scaledFactor?_eq first) (steady_peek_bind (scaledFactor?_eq second) ?_)
  split
  · next v f w g left right =>
    split
    · exact steady_pure .failed
    have factors : ∀ u ∈ [f, g], K.Member s u := by
      simp [scaledFactor?_member first left, scaledFactor?_member second right]
    refine steady_lift_bind (steady_mkReal K _) fun c middle grown literal => ?_
    refine steady_lift_bind (steady_mkApp K rfl (grown.all_member factors))
      fun q after more known => ?_
    exact steady_result (steady_mkMul (by simp [known, more.member literal])) fun _ => rfl
  · exact steady_pure .failed

/-- Division of reals. -/
theorem steady_reduceDiv (first : K.Member s a) (second : K.Member s b) :
    (reduceDiv a b).Steady config s (Outcome.Within K) := by
  refine steady_numeralValue?_bind second fun w => ?_
  split
  · exact steady_divideProducts first second
  split
  · exact steady_pure .failed
  refine steady_numeralValue?_bind first fun v => ?_
  split
  · refine steady_evaluate?_bind fun answer => ?_
    split
    · exact steady_bind (steady_mkNumber K _ false) fun q _ _ inside =>
        steady_pure (.of_result? rfl inside)
    · exact steady_pure .failed
  · refine steady_evaluate?_bind fun answer => ?_
    split
    · refine steady_bind (steady_mkNumber K _ false) fun r after grown inside => ?_
      exact steady_result (steady_mkMul (by simp [inside, grown.member first])) fun _ => rfl
    · exact steady_pure .failed

/-- Euclidean division. -/
theorem steady_reduceIntDiv (first : K.Member s a) (second : K.Member s b) :
    (reduceIntDiv a b).Steady config s (Outcome.Within K) := by
  refine steady_peek_bind (intValue?_eq second) ?_
  split
  · exact steady_pure .failed
  refine steady_peek_bind (intValue?_eq first) ?_
  split
  · exact steady_result (steady_mkInt K _) fun _ => rfl
  · refine steady_pure ?_
    split
    · exact .of_result? rfl first
    · exact .failed

/-- An argument under a remainder. -/
theorem steady_reduceModArg (b : TermId) (k : ℤ) (inside : K.Member s t) :
    (reduceModArg t b k).Steady config s fun u after => K.Member after u := by
  refine steady_peek_bind (intValue?_eq inside) ?_
  split
  · exact steady_lift (steady_mkInt K _)
  refine steady_peek_bind (fun later grown => grown.view_eq (K.inside inside)) ?_
  split
  · next u d view =>
    refine steady_pure ?_
    split
    · exact K.of_view inside view u (by simp)
    · exact inside
  · next lead rest view =>
    obtain ⟨leading, others⟩ := List.forall_mem_cons.mp (K.of_view inside view)
    refine steady_peek_bind (intValue?_eq leading) ?_
    split
    · exact steady_pure inside
    dsimp only
    split
    · exact steady_pure inside
    · refine steady_lift_bind (steady_mkInt K _) fun m after grown literal => ?_
      exact steady_lift (steady_mkMul
        (List.forall_mem_cons.mpr ⟨literal, grown.all_member others⟩))
  · exact steady_pure inside

/-- The arguments of a sum or product under a remainder. -/
theorem steady_pushMod (k : ℤ) (first : K.Member s a) (second : K.Member s b) :
    (pushMod a b k).Steady config s (Outcome.Within K) := by
  refine steady_peek_bind (fun later grown => grown.view_eq (K.inside first)) ?_
  split
  next op args view =>
  split
  · refine steady_bind (steady_mapM_terms K fun x member now grown => steady_reduceModArg b k
      (grown.member (K.of_view first view x member)))
      fun reduced middle grown known => ?_
    split
    · exact steady_pure .failed
    have joined : (if op = .add then (liftM (mkAdd reduced) : Rule TermId) else
        liftM (mkMul reduced)).Steady config middle fun t after => K.Member after t := by
      split
      · exact steady_lift (steady_mkAdd known)
      · exact steady_lift (steady_mkMul known)
    refine steady_ite_bind joined fun inner after more known => ?_
    have second := (grown.trans more).member second
    exact steady_result (steady_mkApp K rfl (by simp [known, second])) fun _ => rfl
  · exact steady_pure .failed

/-- Euclidean remainder. -/
theorem steady_reduceMod (first : K.Member s a) (second : K.Member s b) :
    (reduceMod a b).Steady config s (Outcome.Within K) := by
  refine steady_peek_bind (intValue?_eq second) ?_
  split
  · exact steady_pure .failed
  split
  · exact steady_pure .failed
  refine steady_peek_bind (intValue?_eq first) ?_
  split
  · exact steady_result (steady_mkInt K _) fun _ => rfl
  split
  · exact steady_result (steady_mkInt K _) fun _ => rfl
  refine steady_peek_bind (fun later grown => grown.view_eq (K.inside first)) ?_
  split
  · split
    · exact steady_pure (.of_result? rfl first)
    · exact steady_pure .failed
  · split
    · exact steady_pushMod _ first second
    · exact steady_pure .failed

/-- The remainder with the sign of the divisor. -/
theorem steady_reduceRem (first : K.Member s a) (second : K.Member s b) :
    (reduceRem a b).Steady config s (Outcome.Within K) := by
  have sides : ∀ u ∈ [a, b], K.Member s u := by simp [first, second]
  refine steady_peek_bind (intValue?_eq second) ?_
  split
  · split
    · exact steady_pure .failed
    refine steady_peek_bind (intValue?_eq first) ?_
    split
    · exact steady_result (steady_mkInt K _) fun _ => rfl
    split
    · exact steady_result (steady_mkInt K _) fun _ => rfl
    refine steady_lift_bind (steady_mkApp K rfl sides) fun m middle _ known => ?_
    split
    · refine steady_lift_bind (steady_mkInt K _) fun lead after grown literal => ?_
      exact steady_result (steady_mkMul (by simp [literal, grown.member known])) fun _ => rfl
    · exact steady_pure (.of_result? rfl known)
  · refine steady_read_bind ?_
    split
    · refine steady_lift_bind (steady_mkInt K 0) fun nought first grown literal => ?_
      refine steady_lift_bind (steady_mkApp K rfl (by simp [literal, grown.member second]))
        fun condition second more decided => ?_
      have grown := grown.trans more
      refine steady_lift_bind (steady_mkApp K rfl (grown.all_member sides))
        fun m third more remainder => ?_
      have inner := Kind.below_of_member remainder 0
      refine steady_lift_bind (steady_mkApp_below 0 rfl (by simpa using inner))
        fun negated last most known => ?_
      have decided := Kind.below_of_member ((more.trans most).member decided) 1
      have remainder := Kind.below_of_member (most.member remainder) 1
      exact steady_lift_bind (steady_mkApp_below 1 rfl (by simp [decided, remainder, known]))
        fun _ _ _ below => steady_pure below.wide
    · exact steady_pure .failed

/-- Integral part. -/
theorem steady_reduceToInt (inside : K.Member s a) :
    (reduceToInt a).Steady config s (Outcome.Within K) := by
  refine steady_numeralValue?_bind inside fun value => ?_
  split
  · refine steady_evaluate?_bind fun answer => ?_
    split
    · exact steady_result (steady_mkInt K _) fun _ => rfl
    · exact steady_pure .failed
  refine steady_peek_bind (fun later grown => grown.view_eq (K.inside inside)) ?_
  split
  · next u view =>
    exact steady_pure (.of_result? rfl (K.of_view inside view u (by simp)))
  · exact steady_pure .failed

/-- Cast of an integer. -/
theorem steady_reduceToReal (inside : K.Member s a) :
    (reduceToReal a).Steady config s (Outcome.Within K) := by
  refine steady_peek_bind (fun later grown => grown.numeral?_eq (K.inside inside)) ?_
  split
  · exact steady_result (steady_mkReal K _) fun _ => rfl
  refine steady_peek_bind
    (fun later grown => by rw [Store.isInt, grown.sortOf_eq (K.inside inside)]; rfl) ?_
  split
  · exact steady_pure (.of_result? rfl inside)
  refine steady_peek_bind (fun later grown => grown.view_eq (K.inside inside)) ?_
  split
  next op args view =>
  refine steady_read_bind ?_
  split
  · refine steady_bind
      (steady_mapM_terms K fun x member now grown => steady_lift (steady_mkApp K rfl ?_))
      fun cast middle grown known => ?_
    · have known := K.of_view inside view x member
      exact List.forall_mem_singleton.mpr (grown.member known)
    split
    · exact steady_result (steady_mkAdd known) fun _ => rfl
    · exact steady_result (steady_mkMul known) fun _ => rfl
  · exact steady_pure .failed

/-- Integrality. -/
theorem steady_reduceIsInt (inside : K.Member s a) :
    (reduceIsInt a).Steady config s (Outcome.Within K) := by
  refine steady_numeralValue?_bind inside fun value => ?_
  split
  · exact steady_pure (.of_result? rfl (K.ofBool s _))
  refine steady_peek_bind (fun later grown => ?_) ?_
  · simp only [Store.isInt, grown.sortOf_eq, grown.op_eq, K.inside inside]
  split
  · exact steady_pure (.of_result? rfl (K.ofBool s true))
  refine steady_lift_bind (steady_mkApp K rfl (by simpa using inside))
    fun part first grown known => ?_
  refine steady_lift_bind (steady_mkApp K rfl (by simpa using known)) fun cast last more known => ?_
  have inside := (grown.trans more).member inside
  exact steady_result (steady_mkApp K rfl (by simp [known, inside])) fun _ => rfl

end Stratagem.Arithmetic
