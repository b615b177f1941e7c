import Stratagem.Proofs.Steady.Comparison
import Stratagem.Proofs.Steady.Connective
import Stratagem.Proofs.Steady.Division
import Stratagem.Rewriting.Simplifier

/-!
# All rules are steady

The rules for circular and hyperbolic functions and for bit-vectors, and with them the rules of all
families: in a store that holds a term, the outcome of the rules for it depends only on the nodes
there, and is the same in every store that has grown from the one they leave.
-/
namespace Stratagem

open Store (Extends Kind)
open Terms Rule

variable {K : Kind} {config : SimplifierConfig} {s after : Store} {t a b : TermId} {f : Op}

namespace Arithmetic

/-- An attempt whose answer, if there is one, has a result, which is of a kind as far down as it is
not visited. -/
abbrev AllWithin (K : Kind) (answer : Option Outcome) (s : Store) : Prop :=
  ∀ o ∈ answer, o ≠ .failed ∧ o.Within K s

/-- The answer of an attempt is to be visited again as far down as terms of a kind are below. -/
theorem allWithin_below {levels : ℕ} (below : K.Below levels s t) :
    AllWithin K (some (.revisit levels t)) s :=
  fun _ same => Option.some.inj same ▸ ⟨nofun, below⟩

/-- The answer of an attempt has a result of a kind. -/
theorem allWithin_some {o : Outcome} (result : o.result? = some t) (inside : K.Member s t) :
    AllWithin K (some o) s := by
  rintro _ ⟨⟩
  refine ⟨?_, .of_result? result inside⟩
  rintro rfl
  cases result

/-- A term is built and becomes the result of an attempt. -/
theorem steady_attempt {build : Rule TermId} {wrap : TermId → Outcome}
    (steady : build.Steady config s fun t after => K.Member after t)
    (result : ∀ t, (wrap t).result? = some t) :
    (build >>= fun t => pure (some (wrap t))).Steady config s (AllWithin K) :=
  steady_bind steady fun t _ _ inside => steady_pure (allWithin_some (result t) inside)

/-- A term is built and is to be visited again as far down as terms of a kind are below. -/
theorem steady_attempt_below {build : Rule TermId} {levels : ℕ}
    (steady : build.Steady config s fun t after => K.Below levels after t) :
    (build >>= fun t => pure (some (.revisit levels t))).Steady config s (AllWithin K) :=
  steady_bind steady fun _ _ _ below => steady_pure (allWithin_below below)

/-- The factor of a multiple of pi is the same when the store has grown. -/
theorem piMultiple?_eq (inside : K.Member s t) (later : Store) (grown : s.Extends later) :
    piMultiple? later t = piMultiple? s t := by
  unfold piMultiple?
  rw [Store.isZero, Store.isZero, grown.numeral?_eq (K.inside inside),
    grown.view_eq (K.inside inside)]
  split
  · rfl
  split
  · rfl
  · next c x view =>
    have arguments := K.of_view inside view
    rw [grown.op_eq (K.inside (arguments x (by simp))),
      grown.numeral?_eq (K.inside (arguments c (by simp)))]
  · rfl

/-- The factor of a multiple of pi and an integer is the same when the store has grown. -/
theorem piIntMultiple?_eq (inside : K.Member s t) (later : Store) (grown : s.Extends later) :
    piIntMultiple? later t = piIntMultiple? s t := by
  have factors := Store.monomial_within inside
  unfold piIntMultiple?
  rw [grown.monomial_eq (K.inside inside)]
  dsimp only
  split
  · next x y product =>
    rw [Monomial.Within, product] at factors
    rw [grown.op_eq (K.inside (factors x (by simp))),
      grown.op_eq (K.inside (factors y (by simp)))]
  · rfl

/-- The term of a sum of square roots. -/
theorem steady_mkSurdSum? (v : SurdSum) : (mkSurdSum? v).Steady config s (AllWithin K) := by
  unfold mkSurdSum?
  split
  · exact steady_attempt (steady_lift (steady_mkReal K 0)) fun _ => rfl
  · exact steady_attempt (steady_lift (steady_mkReal K _)) fun _ => rfl
  · refine steady_read_bind ?_
    split
    · exact steady_pure nofun
    refine steady_lift_bind (steady_mkReal K _) fun half middle _ known => ?_
    refine steady_bind (steady_mapM_terms K fun m _ now grown => ?_) fun parts last _ inside => ?_
    · have half := grown.member known
      refine steady_lift_bind (steady_mkReal K _) fun coeff first more literal => ?_
      split
      · exact steady_pure literal
      refine steady_lift_bind (steady_mkReal K _) fun radicand second most known => ?_
      have half := (more.trans most).member half
      refine steady_lift_bind (steady_mkApp K rfl (by simp [known, half]))
        fun root third grown root => ?_
      have literal := (most.trans grown).member literal
      exact steady_lift (steady_mkMul (by simp [literal, root]))
    · exact steady_attempt (steady_lift (steady_mkAdd inside)) fun _ => rfl

/-- A multiple of pi. -/
theorem steady_mkPiTimes (K : Kind) (k : ℚ) :
    (mkPiTimes k).Steady config s fun t after => K.Member after t := by
  unfold mkPiTimes
  split
  · exact steady_lift (steady_mkReal K k)
  refine steady_lift_bind (steady_mkApp K rfl (by simp)) fun pi middle _ known => ?_
  split
  · exact steady_pure known
  refine steady_lift_bind (steady_mkReal K k) fun lead after grown literal => ?_
  exact steady_lift (steady_mkMul (by simp [literal, grown.member known]))

/-- A negated term. -/
theorem steady_mkNegated {levels : ℕ} (below : K.Below levels s t) :
    (mkNegated t).Steady config s fun t after => K.Below (levels + 1) after t := by
  refine steady_lift_bind (steady_mkReal K _) fun lead after grown literal => ?_
  have literal := Kind.below_of_member literal levels
  have product : (mkApp .mul [lead, t]).Steady after fun u last => K.Below (levels + 1) last u :=
    steady_mkApp_below levels rfl (by simp [literal, below.mono grown])
  exact steady_lift product

/-- A function of a term of a kind. -/
theorem steady_mkFunction (known : f.isInterpreted = true) (inside : K.Member s a) :
    (liftM (mkApp f [a]) : Rule TermId).Steady config s fun t after => K.Below 1 after t := by
  have below := Kind.below_of_member inside 0
  exact steady_lift (steady_mkApp_below 0 known (by simpa using below))

/-- The value of a function at a rational. -/
theorem steady_atNumeral? (f : Op) (v : ℚ) : (atNumeral? f v).Steady config s (AllWithin K) := by
  have multiple (k : Option ℚ) : (k.mapM fun k => do return Outcome.done (← mkPiTimes k) :
      Rule (Option Outcome)).Steady config s (AllWithin K) :=
    steady_option_mapM fun k _ => steady_bind (steady_mkPiTimes K k) fun t _ _ inside =>
      steady_pure ⟨nofun, inside⟩
  have constant (holds : Bool) (c : ℚ) : (if holds then do return some (.done (← mkReal c))
      else return none : Rule (Option Outcome)).Steady config s (AllWithin K) := by
    split
    · exact steady_attempt (steady_lift (steady_mkReal K c)) fun _ => rfl
    · exact steady_pure nofun
  unfold atNumeral?
  dsimp only
  split
  case h_10 => exact steady_pure nofun
  case h_7 | h_8 | h_9 => exact multiple _
  all_goals exact constant _ _

/-- A function of a term with a negative coefficient. -/
theorem steady_reduceParity? (known : f.isInterpreted = true) (inside : K.Member s a) :
    (reduceParity? f a).Steady config s (AllWithin K) := by
  have factors := Store.monomial_within inside
  unfold reduceParity?
  split
  · exact steady_pure nofun
  next odd _ =>
  have finish {argument : TermId} {now : Store} (inside : K.Member now argument) :
      (do let fx ← mkApp f [argument]
          if odd then return some (.revisit 2 (← mkNegated fx)) else return some (.revisit 1 fx) :
        Rule (Option Outcome)).Steady config now (AllWithin K) := by
    refine steady_bind (steady_mkFunction known inside) fun fx _ _ below => ?_
    split
    · exact steady_attempt_below (steady_mkNegated below)
    · exact steady_pure (allWithin_below below)
  refine steady_peek_bind (fun later grown => grown.monomial_eq (K.inside inside)) ?_
  refine steady_peek_bind
    (fun later grown => by rw [Store.isNumeral, grown.numeral?_eq (K.inside inside)]; rfl) ?_
  split
  · dsimp only
    split
    · exact steady_lift_bind (steady_mkMul factors) fun argument _ _ inside => finish inside
    · refine steady_lift_bind (steady_mkReal K _) fun lead after grown literal => ?_
      refine steady_lift_bind (steady_mkMul (List.forall_mem_cons.mpr
        ⟨literal, grown.all_member factors⟩)) fun argument _ _ inside => finish inside
  · exact steady_pure nofun

/-- A function of a sum without a multiple of pi. -/
theorem steady_dropMultiple? (c : ℚ) {rest : List TermId} (known : f.isInterpreted = true)
    (inside : ∀ x ∈ rest, K.Member s x) :
    (dropMultiple? f c rest).Steady config s (AllWithin K) := by
  refine steady_lift_bind (steady_mkAdd inside) fun r middle _ argument => ?_
  split
  · refine steady_bind (steady_mkFunction known argument) fun fr _ _ below => ?_
    split
    · exact steady_pure (allWithin_below below.succ)
    · exact steady_attempt_below ((steady_mkNegated below).imp fun _ _ _ below => below.succ)
  split
  · have cofunction {g : Op} (known : g.isInterpreted = true) (negate : Bool) :
        (do let gr ← mkApp g [r]
            if negate then return some (.revisit 3 (← mkNegated gr))
            else return some (.revisit 2 gr) : Rule (Option Outcome)).Steady config middle
          (AllWithin K) := by
      refine steady_bind (steady_mkFunction known argument) fun gr _ _ below => ?_
      split
      · exact steady_attempt_below ((steady_mkNegated below).imp fun _ _ _ below => below.succ)
      · exact steady_pure (allWithin_below below.succ)
    dsimp only
    split
    · exact cofunction rfl _
    · exact cofunction rfl _
  · exact steady_pure nofun

/-- The first summand that is a multiple of the period. -/
theorem steady_shiftFrom (known : f.isInterpreted = true) : ∀ (before summands : List TermId)
    {s : Store}, (∀ x ∈ before, K.Member s x) → (∀ x ∈ summands, K.Member s x) →
    (shiftFrom f before summands).Steady config s (AllWithin K)
  | _, [], _, _, _ => steady_pure nofun
  | before, x :: after, s, first, second => by
    obtain ⟨here, others⟩ := List.forall_mem_cons.mp second
    have rest : ∀ y ∈ before.reverse ++ after, K.Member s y :=
      List.forall_mem_append.mpr ⟨fun y member => first y (List.mem_reverse.mp member), others⟩
    have further {now : Store} (grown : s.Extends now) :
        (shiftFrom f (x :: before) after).Steady config now (AllWithin K) :=
      steady_shiftFrom known (x :: before) after
        (grown.all_member (List.forall_mem_cons.mpr ⟨here, first⟩)) (grown.all_member others)
    unfold shiftFrom
    refine steady_peek_bind (piIntMultiple?_eq here) ?_
    split
    · dsimp only
      generalize (if f = .tan then 1 else 2 : ℚ) = period
      split
      · refine steady_lift_bind (steady_mkAdd rest) fun r middle _ argument => ?_
        exact steady_attempt_below ((steady_mkFunction known argument).imp fun _ _ _ below =>
          below.succ)
      · exact further (.refl s)
    refine steady_peek_bind (piMultiple?_eq here) ?_
    split
    · exact further (.refl s)
    refine steady_bind (steady_dropMultiple? _ known rest) fun answer now grown within => ?_
    split
    · exact steady_pure within
    · exact further grown

/-- A circular function of a sum. -/
theorem steady_shiftPeriod? (known : f.isInterpreted = true) (inside : K.Member s a) :
    (shiftPeriod? f a).Steady config s (AllWithin K) := by
  refine steady_peek_bind (fun later grown => grown.view_eq (K.inside inside)) ?_
  split
  case h_4 => exact steady_pure nofun
  all_goals
    next view => exact steady_shiftFrom known [] _ nofun (K.of_view inside view)

/-- The value at a multiple of pi. -/
theorem steady_reduceAtPi? (f : Op) (inside : K.Member s a) :
    (reduceAtPi? f a).Steady config s (AllWithin K) := by
  refine steady_peek_bind (piMultiple?_eq inside) ?_
  split
  · exact steady_mkSurdSum? _
  · exact steady_pure nofun

/-- The value at a rational literal. -/
theorem steady_reduceAtNumeral? (f : Op) (inside : K.Member s a) :
    (reduceAtNumeral? f a).Steady config s (AllWithin K) := by
  refine steady_peek_bind (fun later grown => grown.numeral?_eq (K.inside inside)) ?_
  split
  · exact steady_atNumeral? f _
  · exact steady_pure nofun

/-- A function of a value of its inverse. -/
theorem steady_reduceInverse? (f : Op) (inside : K.Member s a) :
    (reduceInverse? f a).Steady config s (AllWithin K) := by
  refine steady_peek (fun later grown => by rw [grown.view_eq (K.inside inside)]) ?_
  split
  · next g op x _ view =>
    split
    · exact allWithin_some rfl (K.of_view inside view x (by simp))
    · exact nofun
  · exact nofun

/-- A tangent as a quotient. -/
theorem steady_expandTangent? (f : Op) (inside : K.Member s a) :
    (expandTangent? f a).Steady config s (AllWithin K) := by
  refine steady_read_bind ?_
  split
  · refine steady_lift_bind (steady_mkApp K rfl (by simpa using inside))
      fun sine first grown known => ?_
    have inside := grown.member inside
    refine steady_lift_bind (steady_mkApp K rfl (by simpa using inside))
      fun cosine last more other => ?_
    exact steady_attempt (steady_lift (steady_mkApp K rfl (by simp [other, more.member known])))
      fun _ => rfl
  · exact steady_pure nofun

/-- The first outcome of several attempts. -/
theorem steady_firstOutcome : ∀ (attempts : List (Rule (Option Outcome))) {s : Store},
    (∀ attempt ∈ attempts, ∀ now, s.Extends now → attempt.Steady config now (AllWithin K)) →
    (firstOutcome attempts).Steady config s (Outcome.Within K)
  | [], _, _ => steady_pure .failed
  | attempt :: rest, s, each => by
    obtain ⟨here, others⟩ := List.forall_mem_cons.mp each
    refine steady_bind (here s (.refl s)) fun answer now grown within => ?_
    split
    · exact steady_pure (within _ rfl).2
    · exact steady_firstOutcome rest fun attempt member later more =>
        others attempt member later (grown.trans more)

/-- The attempts for a circular or hyperbolic function or an inverse of one. -/
theorem steady_attempts (known : f.isInterpreted = true) (inside : K.Member s a) :
    ∀ attempt ∈ [reduceAtPi? f a, reduceAtNumeral? f a, reduceInverse? f a, reduceParity? f a,
      shiftPeriod? f a, expandTangent? f a], ∀ now, s.Extends now →
        attempt.Steady config now (AllWithin K) := by
  intro attempt member now grown
  have inside := grown.member inside
  simp only [List.mem_cons, List.not_mem_nil, or_false] at member
  obtain rfl | rfl | rfl | rfl | rfl | rfl := member
  · exact steady_reduceAtPi? f inside
  · exact steady_reduceAtNumeral? f inside
  · exact steady_reduceInverse? f inside
  · exact steady_reduceParity? known inside
  · exact steady_shiftPeriod? known inside
  · exact steady_expandTangent? f inside

/-- A circular or hyperbolic function or an inverse of one. -/
theorem steady_reduceFunction (known : f.isInterpreted = true) (inside : K.Member s a) :
    (reduceFunction f a).Steady config s (Outcome.Within K) :=
  steady_firstOutcome _ (steady_attempts known inside)

/-- The rule for the head of a term. -/
theorem steady_reduceHead (ready : K.Below 1 s t) :
    (reduceHead t).Steady config s (Outcome.Within K) := by
  have inside : t < s.size := K.wide_inside ready.1
  refine steady_peek_bind (fun later grown => grown.view_eq inside) ?_
  have args {op : Op} {args : List TermId} (view : s.view t = (op, args)) :
      ∀ a ∈ args, K.Member s a := ready.of_view view
  have compare {a b : TermId} (first : K.Member s a) (second : K.Member s b) :
      (do return Outcome.revisit 2 (← mkNot (← mkApp .le [a, b])) : Rule Outcome).Steady config s
        (Outcome.Within K) :=
    steady_lift_bind (steady_mkApp K rfl (by simp [first, second])) fun r _ _ inside =>
      steady_result (steady_mkNot inside) fun _ => rfl
  split
  · next view => exact steady_reduceAdd inside (args view)
  · next view => exact steady_reduceMul inside (args view)
  · next view => exact steady_reduceNeg inside (args view _ (by simp))
  · next view => exact steady_reduceSub inside (args view _ (by simp)) (args view _ (by simp))
  · next view => exact steady_reduceDiv (args view _ (by simp)) (args view _ (by simp))
  · next view => exact steady_reduceIntDiv (args view _ (by simp)) (args view _ (by simp))
  · next view => exact steady_reduceMod (args view _ (by simp)) (args view _ (by simp))
  · next view => exact steady_reduceRem (args view _ (by simp)) (args view _ (by simp))
  · next view => exact steady_reducePower inside (args view _ (by simp)) (args view _ (by simp))
  · next view => exact steady_reduceComparison t _ (args view _ (by simp)) (args view _ (by simp))
  · next view => exact steady_reduceComparison t _ (args view _ (by simp)) (args view _ (by simp))
  · next a b view =>
    have first : K.Member s a := args view a (by simp)
    refine steady_peek_bind
      (fun later grown => by rw [Store.isArith, grown.sortOf_eq (K.inside first)]; rfl) ?_
    split
    · exact steady_reduceComparison t _ first (args view b (by simp))
    · exact steady_pure .failed
  · next view => exact compare (args view _ (by simp)) (args view _ (by simp))
  · next view => exact compare (args view _ (by simp)) (args view _ (by simp))
  · next view => exact steady_reduceToInt (args view _ (by simp))
  · next view => exact steady_reduceToReal (args view _ (by simp))
  · next view => exact steady_reduceIsInt (args view _ (by simp))
  · next view =>
    split
    case h_13 => exact steady_pure .failed
    all_goals exact steady_reduceFunction rfl (args view _ (by simp))
  · exact steady_pure .failed

/-- The rules for numbers. -/
theorem steady_reduce (ready : K.Below 1 s t) :
    (reduce t).Steady config s (Outcome.Within K) := by
  refine steady_bind (steady_reduceHead ready) fun outcome after _ within => ?_
  split
  · exact steady_modify_bind (steady_pure within)
  · exact steady_pure within

end Arithmetic

namespace BitVector

/-- A computed literal. -/
theorem steady_fold (value : ℤ) (width : ℕ) :
    (fold value width).Steady config s (Outcome.Within K) :=
  steady_modify_bind (steady_result (steady_mkBitVec K value width) fun _ => rfl)

/-- A computed comparison. -/
theorem steady_foldBool (answer : Bool) : (foldBool answer).Steady config s (Outcome.Within K) :=
  steady_modify_bind (steady_pure (.of_result? rfl (K.ofBool s answer)))

/-- A binary operator on two literals. -/
theorem steady_foldBinary (op : Op) (x y width : ℕ) :
    (foldBinary op x y width).Steady config s (Outcome.Within K) := by
  unfold foldBinary
  split
  case h_11 => exact steady_pure .failed
  case h_7 | h_8 | h_9 | h_10 => exact steady_foldBool _
  all_goals exact steady_fold _ width

/-- A choice of results that are all of a kind. -/
theorem within_ite {c : Prop} [Decidable c] {yes no : Outcome} (first : yes.Within K s)
    (second : no.Within K s) : (if c then yes else no).Within K s := by
  split
  · exact first
  · exact second

/-- A binary operator with a literal or with equal arguments. -/
theorem steady_simplifyBinary (op : Op) (va vb : Option ℕ) (first : K.Member s a)
    (second : K.Member s b) : (simplifyBinary op a b va vb).Steady config s (Outcome.Within K) := by
  have left : (Outcome.done a).Within K s := .of_result? rfl first
  have right : (Outcome.done b).Within K s := .of_result? rfl second
  have truth : (Outcome.done Store.trueId).Within K s := .of_result? rfl (K.ofBool s true)
  have falsity : (Outcome.done Store.falseId).Within K s := .of_result? rfl (K.ofBool s false)
  have nought (width : ℕ) : (do return Outcome.done (← mkBitVec 0 width) : Rule Outcome).Steady
      config s (Outcome.Within K) := steady_result (steady_mkBitVec K 0 width) fun _ => rfl
  refine steady_peek_bind
    (fun later grown => by rw [Store.bitWidth, grown.sortOf_eq (K.inside first)]; rfl) ?_
  dsimp only
  split
  · exact steady_pure (within_ite left (within_ite right .failed))
  · exact steady_pure (within_ite left (within_ite right (within_ite left .failed)))
  · split
    · exact steady_pure left
    split
    · exact steady_pure right
    split
    · exact nought _
    · exact steady_pure .failed
  · split
    · exact steady_pure left
    split
    · exact nought _
    · exact steady_pure .failed
  · exact steady_pure
      (within_ite left (within_ite right (within_ite left (within_ite right .failed))))
  · exact steady_pure (within_ite left (within_ite right (within_ite left .failed)))
  · exact steady_pure (within_ite truth (within_ite truth .failed))
  · exact steady_pure (within_ite truth .failed)
  · exact steady_pure (within_ite falsity .failed)
  · exact steady_pure (within_ite falsity .failed)
  · exact steady_pure .failed

/-- A bit-vector literal is the same when the store has grown. -/
theorem bitVec?_eq (inside : K.Member s t) (later : Store) (grown : s.Extends later) :
    later.bitVec? t = s.bitVec? t := by
  rw [Store.bitVec?, Store.bitVec?, grown.op_eq (K.inside inside)]

/-- A binary operator. -/
theorem steady_reduceBinary (op : Op) (first : K.Member s a) (second : K.Member s b) :
    (reduceBinary op a b).Steady config s (Outcome.Within K) := by
  refine steady_peek_bind (bitVec?_eq first) (steady_peek_bind (bitVec?_eq second) ?_)
  split
  · exact steady_foldBinary op _ _ _
  · exact steady_simplifyBinary op _ _ first second

/-- A part of a bit-vector. -/
theorem steady_reduceExtract (high low : ℕ) (inside : K.Member s a) :
    (reduceExtract high low a).Steady config s (Outcome.Within K) := by
  refine steady_peek_bind (bitVec?_eq inside) ?_
  split
  · exact steady_fold _ _
  refine steady_peek_bind
    (fun later grown => by rw [Store.bitWidth, grown.sortOf_eq (K.inside inside)]; rfl) ?_
  exact steady_pure (within_ite (.of_result? rfl inside) .failed)

/-- An operator that undoes itself. -/
theorem steady_reduceInvolution (op : Op) (value : ℕ → ℕ → ℤ) (inside : K.Member s a) :
    (reduceInvolution op a value).Steady config s (Outcome.Within K) := by
  refine steady_peek_bind (bitVec?_eq inside) ?_
  split
  · exact steady_fold _ _
  refine steady_peek_bind (fun later grown => grown.view_eq (K.inside inside)) ?_
  split
  · next b view =>
    have inner := K.of_view inside view b (by simp)
    exact steady_pure (within_ite (.of_result? rfl inner) .failed)
  · exact steady_pure .failed

/-- The rules for bit-vectors. -/
theorem steady_reduce (ready : K.Below 1 s t) :
    (reduce t).Steady config s (Outcome.Within K) := by
  refine steady_peek_bind (fun later grown => grown.view_eq (K.wide_inside ready.1)) ?_
  have args {op : Op} {args : List TermId} (view : s.view t = (op, args)) :
      ∀ a ∈ args, K.Member s a := ready.of_view view
  split
  · next view => exact steady_reduceInvolution _ _ (args view _ (by simp))
  · next view => exact steady_reduceInvolution _ _ (args view _ (by simp))
  · next view =>
    refine steady_peek_bind (bitVec?_eq (args view _ (by simp)))
      (steady_peek_bind (bitVec?_eq (args view _ (by simp))) ?_)
    split
    · exact steady_fold _ _
    · exact steady_pure .failed
  · next view => exact steady_reduceExtract _ _ (args view _ (by simp))
  · next view => exact steady_reduceBinary _ (args view _ (by simp)) (args view _ (by simp))
  · exact steady_pure .failed

end BitVector

namespace Rewriting

/-- The first family of rules that applies. -/
theorem steady_reduceBy : ∀ (families : List (TermId → Rule Outcome)) {s : Store},
    (∀ family ∈ families, ∀ now, s.Extends now → (family t).Steady config now (Outcome.Within K)) →
    (reduceBy families t).Steady config s (Outcome.Within K)
  | [], _, _ => steady_pure .failed
  | family :: rest, s, each => by
    obtain ⟨here, others⟩ := List.forall_mem_cons.mp each
    refine steady_bind (here s (.refl s)) fun outcome now grown within => ?_
    split
    · exact steady_reduceBy rest fun family member later more =>
        others family member later (grown.trans more)
    · exact steady_pure within

/-- The rules for connectives, numbers and bit-vectors. -/
theorem steady_reduce (ready : K.Below 1 s t) (kept : config.elimAnd = false → K.Head .and) :
    (reduce t).Steady config s (Outcome.Within K) := by
  refine steady_reduceBy _ fun family member now grown => ?_
  have ready := ready.mono grown
  simp only [List.mem_cons, List.not_mem_nil, or_false] at member
  obtain rfl | rfl | rfl := member
  · exact Connective.steady_reduce ready kept
  · exact Arithmetic.steady_reduce ready
  · exact BitVector.steady_reduce ready

/-- The rules for a term that is there. -/
theorem steady_reduce_all (inside : t < s.size) :
    (reduce t).Steady config s (Outcome.Within .all) :=
  steady_reduce (Kind.below_of_member (K := .all) inside 1) fun _ =>
    Op.composes_of_isInterpreted rfl

end Rewriting
end Stratagem
