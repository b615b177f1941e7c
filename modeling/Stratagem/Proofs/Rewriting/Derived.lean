import Stratagem.Proofs.Rewriting.Literal
import Stratagem.Proofs.Steady.Visit
import Stratagem.Proofs.Term.Occurrence

/-!
# Derived operators are written by others

Implications, exclusive disjunctions, strict comparisons, differences and negations of numbers, and
differences of two terms are always written by other operators; conjunctions, remainders with the
sign of the divisor and tangents are if the configuration asks for it. Rules build some of them
again, but only as far down as they ask for another visit, so the simplified terms in which there
are none of them left are a kind that visits stay in: the rules always have a result for a derived
operator.
-/
namespace Stratagem

open Store (Extends Kind)

variable {config : SimplifierConfig} {s after : Store} {t u : TermId}

/-- Whether a term is an operator, applied to as many terms as it takes, that is to be written by
others under a configuration. A remainder by the literal zero is left alone. -/
def Store.isEliminable (s : Store) (config : SimplifierConfig) (t : TermId) : Bool :=
  match s.view t with
  | (.implies, [_, _]) | (.xor, [_, _]) | (.distinct, [_, _]) => true
  | (.lt, [_, _]) | (.gt, [_, _]) | (.sub, [_, _]) | (.neg, [_]) => true
  | (.and, _) => config.elimAnd
  | (.rem, [_, b]) => config.elimRem && !s.isZero b
  | (.tan, [_]) => config.expandTan
  | _ => false

namespace Store

/-- Whether an operator is to be written by others is the same when the store has grown. -/
theorem Extends.isEliminable_eq (grown : s.Extends after) (inside : t < s.size) :
    after.isEliminable config t = s.isEliminable config t := by
  unfold isEliminable
  rw [grown.view_eq inside]
  split
  case h_9 b view =>
    rw [isZero, isZero, grown.numeral?_eq (lt_size_of_view inside view b (by simp))]
  all_goals rfl

/-- Only derived operators are written by others, and conjunctions only if that is asked for. -/
theorem isEliminable_eq_false (kept : (s.op t).isDerived = true → s.op t = .and ∧
    config.elimAnd = false) : s.isEliminable config t = false := by
  have head {op : Op} {args : List TermId} (view : s.view t = (op, args)) : s.op t = op :=
    congrArg Prod.fst view
  unfold isEliminable
  split
  case h_8 view => exact (kept (by rw [head view]; rfl)).2
  case h_11 => rfl
  all_goals
    next view =>
    rw [head view] at kept
    cases (kept rfl).1

/-- A term none of whose operators is to be written by others. -/
structure Reduced (s : Store) (config : SimplifierConfig) (t : TermId) : Prop where
  /-- The term is in the store. -/
  inside : t < s.size
  /-- No operator is left to be written by others. -/
  clean : ∀ a, s.Occurs a t → s.isEliminable config a = false

namespace Reduced

/-- A reduced term stays reduced when the store grows. -/
theorem mono (reduced : s.Reduced config t) (grown : s.Extends after) :
    after.Reduced config t where
  inside := grown.lt_size reduced.inside
  clean a occurs := by
    have before := occurs.of_extends grown reduced.inside
    rw [grown.isEliminable_eq (before.le.trans_lt reduced.inside)]
    exact reduced.clean a before

/-- The arguments of a reduced term are reduced. -/
theorem of_args (t : TermId) (reduced : s.Reduced config t) (a : TermId) (member : a ∈ s.args t) :
    s.Reduced config a where
  inside := (lt_of_mem_args member).trans reduced.inside
  clean b occurs := reduced.clean b (.there member occurs)

/-- A term with reduced arguments is reduced if its own operator stays. -/
theorem of_each (inside : t < s.size) (here : s.isEliminable config t = false)
    (each : ∀ a ∈ s.args t, s.Reduced config a) : s.Reduced config t where
  inside := inside
  clean a occurs := by
    obtain rfl | ⟨b, member, below⟩ := occurs.cases
    · exact here
    · exact (each b member).clean a below

end Reduced

/-- The reduced terms, as a part of all terms that are there. -/
def Kind.reduced (config : SimplifierConfig) : Kind :=
  { Kind.all with
    Member := fun s t => s.Reduced config t
    Head := fun op => op.Composes ∧ (op.isDerived = true → op = .and ∧ config.elimAnd = false)
    wide := Reduced.inside
    mono := fun grown reduced => reduced.mono grown
    of_args := Reduced.of_args
    primitive := fun composes basic => ⟨composes, fun derived => by simp [basic] at derived⟩
    composed := fun inside head each => .of_each inside (isEliminable_eq_false head.2) each }

end Store

open Terms Rule

/-- A rule gives a result. -/
abbrev Rule.Succeeds (rule : Rule Outcome) (config : SimplifierConfig) (s : Store) : Prop :=
  rule.Ensures config s fun o _ => o ≠ .failed

namespace Rule

variable {α : Type} {next : α → Rule Outcome}

/-- A rule gives a result whatever is found before. -/
theorem succeeds_bind {rule : Rule α}
    (each : ∀ a after, s.Extends after → (next a).Succeeds config after) :
    (rule >>= next).Succeeds config s := ensures_bind_of_all each

/-- A result is given. -/
theorem succeeds_pure {o : Outcome} (result : o ≠ .failed) :
    (pure o : Rule Outcome).Succeeds config s := ensures_pure result

/-- Something is found that is the result. -/
theorem succeeds_result {rule : Rule α} {wrap : α → Outcome} (result : ∀ a, wrap a ≠ .failed) :
    (rule >>= fun a => pure (wrap a)).Succeeds config s :=
  succeeds_bind fun a _ _ => succeeds_pure (result a)

/-- A choice of two rules gives a result if both do. -/
theorem succeeds_ite {c : Prop} [Decidable c] {yes no : Rule Outcome}
    (first : yes.Succeeds config s) (second : no.Succeeds config s) :
    (if c then yes else no).Succeeds config s := by
  split
  · exact first
  · exact second

end Rule

namespace Connective

variable {args : List TermId}

/-- A conjunction is written as a disjunction if that is asked for. -/
theorem reduceAnd_succeeds (inside : t < s.size) (view : s.view t = (.and, args))
    (asked : config.elimAnd = true) : (reduceAnd t args).Succeeds config s := by
  refine succeeds_bind fun outcome after grown => ensures_read_bind ?_
  rw [asked]
  refine ensures_peek_bind ?_
  split
  · exact succeeds_bind fun _ _ _ => succeeds_bind fun _ _ _ => succeeds_result nofun
  · next other =>
    refine succeeds_pure ?_
    rintro rfl
    exact other args ((grown.view_eq inside).trans view)

end Connective

namespace Arithmetic

variable {a b : TermId}

/-- A difference is written as a sum. -/
theorem reduceSub_succeeds : (reduceSub t a b).Succeeds config s :=
  succeeds_bind fun _ _ _ => succeeds_bind fun _ _ _ => succeeds_bind fun _ _ _ =>
    succeeds_result nofun

/-- A negated number is written as a literal or a product. -/
theorem reduceNeg_succeeds : (reduceNeg t a).Succeeds config s := by
  refine succeeds_bind fun _ _ _ => succeeds_bind fun value _ _ => ?_
  split
  · exact succeeds_result nofun
  · exact succeeds_bind fun _ _ _ => succeeds_result nofun

/-- A literal with the integral value zero is zero. -/
theorem isZero_of_intValue? (value : intValue? s b = some 0) : s.isZero b = true := by
  obtain ⟨r, literal, found⟩ := Option.bind_eq_some_iff.mp value
  split at found
  · obtain rfl := Rat.num_eq_zero.mp (Option.some.inj found)
    simp [Store.isZero, literal]
  · cases found

/-- A remainder by anything but the literal zero is written by others if that is asked for. -/
theorem reduceRem_succeeds (asked : config.elimRem = true) (divisor : s.isZero b = false) :
    (reduceRem a b).Succeeds config s := by
  refine ensures_peek_bind ?_
  split
  · next k value =>
    rw [if_neg]
    · refine succeeds_bind fun found _ _ => ?_
      split
      · exact succeeds_result nofun
      refine succeeds_ite (succeeds_result nofun) (succeeds_bind fun m _ _ => ?_)
      exact succeeds_ite (succeeds_bind fun _ _ _ => succeeds_result nofun) (succeeds_pure nofun)
    · rintro rfl
      simp [isZero_of_intValue? value] at divisor
  · refine ensures_read_bind ?_
    rw [if_pos asked]
    exact succeeds_bind fun _ _ _ => succeeds_bind fun _ _ _ => succeeds_bind fun _ _ _ =>
      succeeds_bind fun _ _ _ => succeeds_result nofun

/-- Of several attempts whose answers are results, one that always answers makes an outcome. -/
theorem firstOutcome_succeeds {sure : Rule (Option Outcome)} :
    ∀ (attempts : List (Rule (Option Outcome))) {s : Store},
    (∀ attempt ∈ attempts, ∀ now, s.Extends now → attempt.Steady config now (AllWithin .all)) →
    sure ∈ attempts →
    (∀ now, s.Extends now → sure.Ensures config now fun answer _ => answer.isSome = true) →
    (firstOutcome attempts).Succeeds config s
  | attempt :: rest, s, each, member, answers => by
    obtain ⟨here, others⟩ := List.forall_mem_cons.mp each
    have known : attempt.Ensures config s _ :=
      (here s (.refl s)).ensures fun answer _ _ nodes all o given =>
        ⟨(all o given).1, (all o given).2.mono (.of_nodes_eq nodes)⟩
    unfold firstOutcome
    obtain rfl | later := List.mem_cons.mp member
    · refine ensures_bind (known.and (answers s (.refl s))) fun answer now _ found => ?_
      obtain ⟨o, rfl⟩ := Option.isSome_iff_exists.mp found.2
      exact succeeds_pure (found.1.1 o rfl).1
    · refine ensures_bind known fun answer now grown found => ?_
      split
      · exact succeeds_pure (found.1 _ rfl).1
      · exact firstOutcome_succeeds rest
          (fun attempt member later more => others attempt member later (grown.trans more)) later
          fun later more => answers later (grown.trans more)

/-- A tangent is written as a quotient if nothing else is done with it and that is asked for. -/
theorem reduceFunction_succeeds (inside : a < s.size) (asked : config.expandTan = true) :
    (reduceFunction .tan a).Succeeds config s := by
  have quotient (now : Store) : (expandTangent? .tan a).Ensures config now
      fun answer _ => answer.isSome = true := by
    refine ensures_read_bind ?_
    rw [if_pos ⟨rfl, asked⟩]
    exact ensures_bind_of_all fun _ _ _ => ensures_bind_of_all fun _ _ _ =>
      ensures_bind_of_all fun _ _ _ => ensures_pure rfl
  exact firstOutcome_succeeds _ (steady_attempts (K := .all) rfl inside) (by simp)
    fun now _ => quotient now

end Arithmetic

namespace Rewriting

/-- The rules have a result if those of one family have one. -/
theorem reduceBy_succeeds (chosen : TermId → Rule Outcome)
    (families : List (TermId → Rule Outcome)) (member : chosen ∈ families)
    (succeeds : ∀ now, s.Extends now → (chosen t).Succeeds config now) :
    (reduceBy families t).Succeeds config s := by
  induction families generalizing s with
  | nil => cases member
  | cons family rest tail =>
    unfold reduceBy
    obtain rfl | later := List.mem_cons.mp member
    · refine ensures_bind (succeeds s (.refl s)) fun outcome _ _ result => ?_
      cases outcome with
      | failed => exact absurd rfl result
      | done | revisit | revisitAll => exact succeeds_pure result
    · refine ensures_bind_of_all fun outcome now grown => ?_
      cases outcome with
      | failed => exact tail later fun later more => succeeds later (grown.trans more)
      | done | revisit | revisitAll => exact succeeds_pure (by simp)

/-- The rules for connectives write some operators by others. -/
theorem reduce_succeeds_of_connective
    (succeeds : ∀ now, s.Extends now → (Connective.reduce t).Succeeds config now) :
    (reduce t).Succeeds config s :=
  reduceBy_succeeds Connective.reduce _ (by simp) succeeds

/-- The rules for numbers write some operators by others. -/
theorem reduce_succeeds_of_arithmetic
    (succeeds : ∀ now, s.Extends now → (Arithmetic.reduceHead t).Succeeds config now) :
    (reduce t).Succeeds config s := by
  refine reduceBy_succeeds Arithmetic.reduce _ (by simp) fun now grown => ?_
  refine ensures_bind (succeeds now grown) fun outcome _ _ result => ?_
  split
  · exact ensures_modify_bind (succeeds_pure result)
  · exact succeeds_pure result

/-- The rules have a result for an operator that is to be written by others. -/
theorem reduce_succeeds (inside : t < s.size) (eliminable : s.isEliminable config t = true) :
    (reduce t).Succeeds config s := by
  have seen {op : Op} {args : List TermId} (view : s.view t = (op, args)) {now : Store}
      (grown : s.Extends now) : now.view t = (op, args) := (grown.view_eq inside).trans view
  unfold Store.isEliminable at eliminable
  split at eliminable
  case h_1 view | h_2 view =>
    refine reduce_succeeds_of_connective fun now grown => ensures_peek_bind ?_
    rw [seen view grown]
    exact succeeds_bind fun _ _ _ => succeeds_result nofun
  case h_4 view | h_5 view =>
    refine reduce_succeeds_of_arithmetic fun now grown => ensures_peek_bind ?_
    rw [seen view grown]
    exact succeeds_bind fun _ _ _ => succeeds_result nofun
  · next view =>
    refine reduce_succeeds_of_connective fun now grown => ensures_peek_bind ?_
    rw [seen view grown]
    refine succeeds_ite (succeeds_pure nofun) (succeeds_ite (succeeds_pure nofun) ?_)
    exact succeeds_bind fun _ _ _ => succeeds_result nofun
  · next view =>
    refine reduce_succeeds_of_arithmetic fun now grown => ensures_peek_bind ?_
    rw [seen view grown]
    exact Arithmetic.reduceSub_succeeds
  · next view =>
    refine reduce_succeeds_of_arithmetic fun now grown => ensures_peek_bind ?_
    rw [seen view grown]
    exact Arithmetic.reduceNeg_succeeds
  · next view =>
    refine reduce_succeeds_of_connective fun now grown => ensures_peek_bind ?_
    rw [seen view grown]
    exact Connective.reduceAnd_succeeds (grown.lt_size inside) (seen view grown) eliminable
  · next b view =>
    obtain ⟨asked, divisor⟩ := Bool.and_eq_true_iff.mp eliminable
    refine reduce_succeeds_of_arithmetic fun now grown => ensures_peek_bind ?_
    rw [seen view grown]
    have same : now.isZero b = s.isZero b := by
      rw [Store.isZero, Store.isZero,
        grown.numeral?_eq (Store.lt_size_of_view inside view b (by simp))]
    exact Arithmetic.reduceRem_succeeds asked (same.trans (by simpa using divisor))
  · next a view =>
    refine reduce_succeeds_of_arithmetic fun now grown => ensures_peek_bind ?_
    rw [seen view grown]
    have argument := Store.lt_size_of_view inside view a (by simp)
    exact Arithmetic.reduceFunction_succeeds (grown.lt_size argument) eliminable
  · cases eliminable

/-- Visits stay among the terms without operators that are to be written by others. -/
theorem visited_reduced (config : SimplifierConfig) :
    (Kind.reduced config).Visited config where
  conjunction kept := ⟨Op.composes_of_isInterpreted rfl, fun _ => ⟨rfl, kept⟩⟩
  rebuilt {s t args} inside _ arguments := by
    refine (steady_rebuild_view inside (Kind.all_inside arguments)).imp
      fun u after grown found => ⟨found.1, ?_⟩
    have same : after.args u = args := congrArg Prod.snd found.2.1
    rw [same]
    exact grown.all_member arguments
  settled {s after t} below yields := by
    refine .of_each below.1 ?_ below.2
    refine Bool.eq_false_iff.mpr fun eliminable => ?_
    obtain ⟨_, _, result⟩ := yields.leads.exists_of_ensures (reduce_succeeds below.1 eliminable)
    exact result rfl

/-- Whatever the configuration is and whatever the simplifier did before, no subterm of a simplified
term is an implication, an exclusive disjunction, a strict comparison, a difference or a negation of
numbers, or a difference of two terms; and none is a conjunction, a remainder whose divisor is not
the literal zero, or a tangent, if these are to be written by others. -/
theorem simplify_eliminates {r r' : Simplifier} {context : Context} {limit : ℕ}
    (reachable : r.Reachable s)
    (run : ((simplifyWithin context limit t).runFrom r).run s = ((.ok u, r'), after)) :
    ∀ a, after.Occurs a u → after.isEliminable r.config a = false := by
  have ensured : (simplifyWithin context limit t).Ensures r s _ _ :=
    simplifyWithin_visits (recalls_of_reachable reachable)
  obtain ⟨_, _, levels, visits⟩ := ensured.of_ok run
  have reduced : (Kind.reduced r.config).Member after u :=
    visits.member (visited_reduced r.config) (visits.inside nofun)
  exact reduced.clean

/-- That a truth value is different from itself is simplified to a term without differences of two
terms. -/
theorem simplify_eliminates_case :
    let work := mkApp .distinct [Store.trueId, Store.trueId]
    let t := (work.run .initial).1
    let s := (work.run .initial).2
    ∃ limit u r' after, s.isEliminable {} t = true ∧
      ((simplifyWithin .unbounded limit t).runFrom {}).run s = ((.ok u, r'), after) ∧
      ∀ a, after.Occurs a u → after.isEliminable {} a = false := by
  have built : (mkApp .distinct [Store.trueId, Store.trueId]).Ensures .initial fun t s =>
      s.nodes[t]? = some ⟨.distinct, [Store.trueId, Store.trueId], .bool⟩ :=
    mkApp_getElem? (by simpa using Store.initial.node_trueId.1) rfl
  intro work t s
  change s.nodes[t]? = _ at built
  generalize t = t, s = s at built ⊢
  have ruled : (reduce t).Ensures {} s fun o _ => ∃ u, o = .done u ∧ True := by
    refine (reduce_of_connective ?_).imp fun _ _ _ result => result
    unfold Connective.reduce
    refine ensures_peek_bind ?_
    rw [view_of_getElem? built]
    exact ensures_pure ⟨rfl, Store.falseId, rfl, trivial⟩
  have atom : Atomic s Store.trueId := by
    obtain ⟨inside, node⟩ := s.node_trueId
    exact atomic_of_getElem? (node ▸ Store.getElem?_eq_node inside) rfl
  obtain ⟨u, r', after, run, _⟩ := (simplify_leaves built (by simpa using atom) (by simp)
    ruled).exists_ok
  have run := run_simplify {} s t ▸ run
  refine ⟨_, u, r', after, ?_, run, simplify_eliminates (.start {} s) run⟩
  rw [Store.isEliminable, view_of_getElem? built]

end Rewriting
end Stratagem
