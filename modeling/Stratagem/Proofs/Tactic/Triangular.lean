import Mathlib.Data.Finset.Card
import Stratagem.Probe.Statistic
import Stratagem.Proofs.Goal.Choice
import Stratagem.Proofs.Rewriting.Constant
import Stratagem.Proofs.Tactic.Definition

/-!
# Eliminated constants do not come back

A round of the elimination reads a definition off a formula: a constant of the goal and a term over
its other constants. The constant is replaced everywhere, and neither the replacement nor the
simplifier brings in another one, so the goal that is left is over the other constants. Hence a goal
is done after as many rounds as it has constants, whatever rounds are allowed, and its definitions
are triangular: a constant that is defined occurs neither in its own definition nor in a later one.
-/
namespace Stratagem

open Store (Extends Kind)

variable {K : Kind} {s after : Store} {g : Goal} {e : Entry} {V W : Finset TermId}

namespace Goal

variable {part : Part} {proof : Option Proof} {slot : ℕ}

/-- Derived parts have the formulas of the kind that they are derived for. -/
theorem mapM_derive_member {rule : ProofRule} {terms : List TermId}
    (inside : ∀ f ∈ terms, K.Member s f) :
    (terms.mapM (derive rule proof)).Ensures s fun parts after =>
      ∀ p ∈ parts, K.Member after p.1 := by
  refine (mapM_derive_formulas terms).imp fun parts after grown same p member => ?_
  exact grown.member (inside p.1 (same ▸ List.mem_map_of_mem member))

/-- The negations of formulas of a kind are of the kind. -/
theorem negations_member {terms : List TermId} (inside : ∀ f ∈ terms, K.Member s f) :
    (negations terms).Ensures s fun found after => ∀ n ∈ found, K.Member after n := by
  induction terms with
  | nil => exact Terms.ensures_pure (by simp)
  | cons a rest tail =>
    obtain ⟨first, others⟩ := List.forall_mem_cons.mp inside
    refine Terms.ensures_bind (tail others) fun found middle grown known => ?_
    refine Terms.ensures_bind (Terms.steady_mkNot (grown.member first)).member
      fun n after more built => ?_
    exact Terms.ensures_pure (List.forall_mem_cons.mpr ⟨built, more.all_member known⟩)

/-- The parts of a formula of a kind are of the kind. -/
theorem split?_member (inside : K.Member s part.1) :
    (split? part).Ensures s fun found after =>
      ∀ parts, found = some parts → ∀ p ∈ parts, K.Member after p.1 := by
  obtain ⟨f, proof⟩ := part
  unfold split?
  refine Terms.ensures_read_bind ?_
  dsimp only
  split
  · refine Terms.ensures_pure fun parts found => ?_
    obtain rfl := Option.some.inj found
    simp
  · next members view =>
    refine Terms.ensures_bind (mapM_derive_member (Kind.of_view inside view))
      fun parts after _ known => Terms.ensures_pure fun _ found => ?_
    exact Option.some.inj found ▸ known
  · next a view =>
    have below := Kind.of_view inside view a (List.mem_singleton_self a)
    split
    · refine Terms.ensures_pure fun parts found => ?_
      obtain rfl := Option.some.inj found
      simp
    · next members inner =>
      refine Terms.ensures_bind (negations_member (Kind.of_view below inner))
        fun negated middle _ known => ?_
      refine Terms.ensures_bind (mapM_derive_member known)
        fun parts after _ known => Terms.ensures_pure fun _ found => ?_
      exact Option.some.inj found ▸ known
    · exact Terms.ensures_pure (by simp)
  · exact Terms.ensures_pure (by simp)

/-- The conjuncts of a formula of a kind are of the kind. -/
theorem flatten_member {f : TermId} (inside : K.Member s f) :
    (flatten f proof).Ensures s fun parts after => ∀ p ∈ parts, K.Member after p.1 := by
  have start : ∀ p ∈ [(f, proof)] ++ ([] : List Part), K.Member s p.1 := by simpa using inside
  have conjuncts : (conjunctsOnto (f + 1) [] (f, proof)).Ensures s fun parts after =>
      ∀ p ∈ ([] : List Part) ++ parts, K.Member after p.1 := by
    refine conjunctsOnto_induct (P := fun s pending conjuncts =>
      ∀ p ∈ pending ++ conjuncts, K.Member s p.1) ?_ ?_ (f + 1) start
    · exact fun known p member => known p (List.perm_middle.mem_iff.mp member)
    · intro s part pending conjuncts known
      refine (split?_member (known part (by simp))).imp fun outcome after grown parts => ?_
      have others : ∀ p ∈ pending ++ conjuncts, K.Member after p.1 := fun p member =>
        grown.member (known p (List.mem_cons_of_mem _ member))
      refine ⟨fun _ p member => grown.member (known p member), fun found same p member => ?_⟩
      rw [List.append_assoc] at member
      exact (List.mem_append.mp member).elim (parts found same p) (others p)
  refine Terms.ensures_bind conjuncts fun parts after _ known => Terms.ensures_pure ?_
  simpa using known

/-- After the formula of a slot of a consistent goal is replaced by one of a kind, every formula is
of the kind, except for those of the other slots if the goal is still consistent. -/
theorem update_member (consistent : g.inconsistent = false) (inside : K.Member s e.formula) :
    (g.update slot e).Ensures s fun g' after => ∀ k d, g'.entries[k]? = some d →
      K.Member after d.formula ∨
        k ≠ slot ∧ g.entries[k]? = some d ∧ g'.inconsistent = false := by
  refine (update_ensures (flatten_member inside)).imp fun g' after _ result k d found => ?_
  obtain ⟨refuted, _⟩ | ⟨_, parts, known, outcome⟩ := result
  · exact absurd (consistent.symm.trans refuted) Bool.false_ne_true
  obtain ⟨part, _, _, rfl⟩ | ⟨_, _, rfl, rfl⟩ := outcome
  · obtain rfl := List.mem_singleton.mp (List.mem_of_getElem? found)
    exact .inl (K.ofBool after false)
  · obtain ⟨other, old⟩ | ⟨_, added⟩ | ⟨_, _, rfl⟩ := placed_cases found
    · exact .inr ⟨other, old, consistent⟩
    · obtain ⟨part, member, rfl⟩ := List.mem_map.mp added
      exact .inl (known part member)
    · exact .inl (K.ofBool after true)

/-- Dropping redundant formulas leaves only formulas of a kind if all are of it. -/
theorem elimRedundancies_member (inside : ∀ f ∈ g.formulas, K.Member s f) :
    g.elimRedundancies.Ensures s fun g' after => ∀ f ∈ g'.formulas, K.Member after f := by
  refine elimRedundancies_ensures.imp fun g' after grown outcome => ?_
  obtain ⟨_, rfl⟩ | ⟨_, ⟨proof, _, _, _, _, _, _, rfl⟩ | ⟨kept, old, _, rfl, rfl⟩⟩ := outcome
  · exact grown.all_member inside
  · intro f member
    obtain rfl := List.mem_singleton.mp member
    exact K.ofBool after false
  · intro f member
    obtain ⟨e, among, rfl⟩ := List.mem_map.mp member
    exact inside _ (List.mem_map_of_mem (old e among).1)

end Goal

namespace EquationSolver

open Store (Over)

variable {config : EquationConfig} {a b f t x : TermId} {name : String}

/-- A summand of a definition is of the kind of its factors. -/
theorem summand_member {product : PowerProduct} (isInt : Bool) (coeff : ℚ)
    (inside : ∀ a ∈ product, K.Member s a) :
    (summand isInt coeff product).Ensures s fun t after => K.Member after t := by
  have scaled : ∀ t now, K.Member now t →
      (if coeff = 1 then pure t
        else do Terms.mkMul [← Terms.mkNumeral coeff isInt, t] : Terms TermId).Ensures now
        fun t after => K.Member after t := by
    intro t now known
    split
    · exact Terms.ensures_pure known
    · refine Terms.ensures_bind (Terms.steady_mkNumeral K coeff isInt).member
        fun c after grown literal => ?_
      exact (Terms.steady_mkMul (by simpa using ⟨literal, grown.member known⟩)).member
  rcases product with _ | ⟨factor, _ | ⟨second, rest⟩⟩
  · exact Terms.ensures_bind (Terms.steady_mkMul inside).member fun t after _ => scaled t after
  · exact scaled factor s (inside factor (List.mem_singleton_self factor))
  · exact Terms.ensures_bind (Terms.steady_mkMul inside).member fun t after _ => scaled t after

/-- The term that solves an equation is of the kind of the factors in the other monomials. -/
theorem solution_member {others : List Monomial} (isInt : Bool) (constant leading : ℚ)
    (inside : ∀ m ∈ others, m.Within K s) :
    (solution isInt constant leading others).Ensures s fun t after => K.Member after t := by
  have summands : ∀ now, s.Extends now →
      (others.mapM fun m => summand isInt (-m.coeff / leading) m.product).Ensures now
        fun terms after => ∀ t ∈ terms, K.Member after t := by
    intro now grown
    have each : (others.mapM fun m => summand isInt (-m.coeff / leading) m.product).Ensures now
        fun terms after => List.Forall₂ (fun _ t => K.Member after t) others terms := by
      refine Terms.ensures_mapM ?_ others fun m member later more => ?_
      · exact fun _ _ _ _ more known => more.member known
      · exact summand_member isInt _ ((grown.trans more).all_member (inside m member))
    refine each.imp fun terms after _ known t member => ?_
    obtain ⟨_, _, here⟩ := exists_of_forall₂ known.flip member
    exact here
  unfold solution
  dsimp only
  split
  · rw [pure_bind]
    refine Terms.ensures_bind (summands s (.refl s)) fun rest after _ known => ?_
    split
    · exact (Terms.steady_mkNumeral K 0 isInt).member
    · exact (Terms.steady_mkAdd known).member
  · rw [map_eq_pure_bind, bind_assoc]
    refine Terms.ensures_bind (Terms.steady_mkNumeral K _ isInt).member
      fun c now grown literal => ?_
    rw [pure_bind]
    refine Terms.ensures_bind (summands now grown) fun rest after more known => ?_
    exact (Terms.steady_mkAdd (List.forall_mem_cons.mpr ⟨more.member literal, known⟩)).member

/-- The factors in the difference of two terms of a kind are of the kind. -/
theorem difference_within (left : K.Member s a) (right : K.Member s b) :
    (difference s a b).monomials.Within K s := by
  refine Monomials.Within.retainNonzero ?_
  have terms : ∀ m ∈ (s.linearForm b).monomials.toList, m.Within K s :=
    Store.linearForm_within right
  generalize (s.linearForm b).monomials.toList = monomials at terms
  have start : (s.linearForm a).monomials.Within K s := Store.linearForm_within left
  generalize (s.linearForm a).monomials = sum at start
  induction monomials generalizing sum with
  | nil => exact start
  | cons m rest later =>
    obtain ⟨here, others⟩ := List.forall_mem_cons.mp terms
    exact later others _ (start.add here)

/-- A definition that can be read off formulas over a set of constants: one of them is defined by a
term over the others. -/
structure Reads (s : Store) (V : Finset TermId) (d : Definition) : Prop where
  /-- A constant is defined. -/
  constant : ∃ name, s.op d.1 = .var name
  /-- It is one of the set. -/
  member : d.1 ∈ V
  /-- Its definition is over the others. -/
  body : s.Over (V.erase d.1) d.2

namespace Reads

variable {d : Definition}

/-- A definition stays one when the store grows. -/
theorem mono (reads : Reads s V d) (grown : s.Extends after) : Reads after V d where
  constant := by
    obtain ⟨name, var⟩ := reads.constant
    exact ⟨name, (grown.op_eq (Store.lt_size_of_var var)).trans var⟩
  member := reads.member
  body := reads.body.mono grown

/-- A definition of one of some constants is one of one of more. -/
theorem weaken (reads : Reads s V d) (fewer : V ⊆ W) : Reads s W d where
  constant := reads.constant
  member := fewer reads.member
  body := reads.body.weaken (Finset.erase_subset_erase _ fewer)

/-- The constant does not occur in a term over other constants. -/
theorem not_occurs (reads : Reads s V d) (ranges : s.Over W t) (out : d.1 ∉ W) :
    ¬s.Occurs d.1 t := by
  obtain ⟨name, var⟩ := reads.constant
  exact ranges.not_occurs var out

end Reads

/-- A constant is one by its head. -/
theorem exists_op_of_isVar (var : s.isVar x = true) : ∃ name, s.op x = .var name := by
  unfold Store.isVar Store.varName? at var
  split at var
  · next name head => exact ⟨name, head⟩
  · cases var

/-- An equation of a constant and a term in which it does not occur is read. -/
theorem direct?_reads {d : Definition} (found : direct? s x t = some d) (left : s.Over V x)
    (right : s.Over V t) : Reads s V d := by
  unfold direct? at found
  split at found
  · next fits =>
    obtain rfl := Option.some.inj found
    simp only [Bool.and_eq_true, Bool.not_eq_true'] at fits
    obtain ⟨⟨var, _⟩, absent⟩ := fits
    obtain ⟨name, var⟩ := exists_op_of_isVar var
    exact ⟨⟨name, var⟩, left.constants x name .here var, right.erase absent⟩
  · cases found

/-- A linear equation is solved for one of its constants by a term over the others, or left as it
is. -/
theorem linear?_reads {allowed : Store → TermId → Bool} (left : s.Over V a) (right : s.Over V b) :
    (linear? allowed a b).Ensures s fun found after =>
      (found = none → after = s) ∧ ∀ d, found = some d → Reads after V d := by
  unfold linear?
  refine Terms.ensures_read_bind ?_
  have within : (difference s a b).monomials.Within (.ofConstants V) s :=
    difference_within left right
  dsimp only
  split
  · exact Terms.ensures_pure ⟨fun _ => rfl, by simp⟩
  next position chosen =>
  split
  · next leading x there =>
    obtain ⟨short, holds, _⟩ := List.findIdx?_eq_some_iff_getElem.mp chosen
    rw [(List.getElem?_eq_some_iff.mp there).2] at holds
    obtain ⟨var, _, _, absent⟩ := solvable_spec (difference_apart a b) there holds
    obtain ⟨name, var⟩ := exists_op_of_isVar var
    have ranges : s.Over V x := within _ (List.mem_of_getElem? there) x (List.mem_singleton_self x)
    have others : ∀ m ∈ (difference s a b).monomials.toList.eraseIdx position,
        m.Within (.ofConstants (V.erase x)) s := fun m member f factor =>
      Over.erase (within m (List.mem_of_mem_eraseIdx member) f factor)
        ((absent m member).2.2 f factor)
    refine Terms.ensures_bind (solution_member (s.isInt x) _ leading others)
      fun body after grown built => Terms.ensures_pure ⟨by simp, fun d found => ?_⟩
    obtain rfl := Option.some.inj found
    have member := ranges.constants x name .here var
    rw [← grown.op_eq ranges.inside] at var
    exact ⟨⟨name, var⟩, member, built⟩
  · exact Terms.ensures_pure ⟨fun _ => rfl, by simp⟩

/-- A formula gives a definition of one of its constants by a term over the others, or nothing is
built. -/
theorem definition?_reads (ranges : s.Over V f) :
    (definition? config g f).Ensures s fun found after =>
      (found = none → after = s) ∧ ∀ d, found = some d → Reads after V d := by
  have literal (x : TermId) (b : Bool) : s.Over (V.erase x) (Terms.ofBool b) :=
    (Kind.ofConstants (V.erase x)).ofBool s b
  unfold definition?
  refine Terms.ensures_read_bind ?_
  dsimp only
  split
  · next name args view =>
    have var : s.op f = .var name := congrArg Prod.fst view
    refine Terms.ensures_pure ⟨fun _ => rfl, fun d found => ?_⟩
    split at found
    · obtain rfl := Option.some.inj found
      exact ⟨⟨name, var⟩, ranges.constants f name .here var, literal f true⟩
    · cases found
  · next a view =>
    have below : s.Over V a :=
      Kind.of_view (K := .ofConstants V) ranges view a (List.mem_singleton_self a)
    refine Terms.ensures_pure ⟨fun _ => rfl, fun d found => ?_⟩
    split at found
    · next chosen =>
      obtain rfl := Option.some.inj found
      obtain ⟨name, var⟩ := exists_op_of_isVar (Bool.and_eq_true_iff.mp chosen).1
      exact ⟨⟨name, var⟩, below.constants a name .here var, literal a false⟩
    · cases found
  · next a b view =>
    have sides := Kind.of_view (K := .ofConstants V) ranges view
    have left : s.Over V a := sides a (by simp)
    have right : s.Over V b := sides b (by simp)
    split
    · next d chosen =>
      refine Terms.ensures_pure ⟨by simp, fun _ found => ?_⟩
      obtain rfl := Option.some.inj found
      obtain first | ⟨_, second⟩ := Option.or_eq_some_iff.mp chosen
      · exact direct?_reads (Option.filter_eq_some_iff.mp first).1 left right
      · exact direct?_reads (Option.filter_eq_some_iff.mp second).1 right left
    · split
      · exact linear?_reads left right
      · exact Terms.ensures_pure ⟨fun _ => rfl, by simp⟩
  · exact Terms.ensures_pure ⟨fun _ => rfl, by simp⟩

/-- The first definition that formulas give is one of their constants by a term over the others; if
there is none, nothing is built. -/
theorem candidate?_reads {formulas : List TermId} {slot : ℕ} (ranges : ∀ f ∈ formulas, s.Over V f) :
    (candidate? config g slot formulas).Ensures s fun found after =>
      (found = none → after = s) ∧ ∀ place d, found = some (place, d) → Reads after V d := by
  induction formulas generalizing s slot with
  | nil => exact Terms.ensures_pure ⟨fun _ => rfl, by simp⟩
  | cons f rest tail =>
    obtain ⟨here, others⟩ := List.forall_mem_cons.mp ranges
    unfold candidate?
    refine Terms.ensures_bind (definition?_reads here) fun found middle _ known => ?_
    cases found with
    | some d =>
      refine Terms.ensures_pure ⟨by simp, fun _ _ found => ?_⟩
      obtain ⟨_, rfl⟩ := Prod.mk.inj (Option.some.inj found)
      exact known.2 d rfl
    | none =>
      obtain rfl := known.1 rfl
      exact tail others

section Elimination

open Attempt Rewriting

variable {rules : SimplifierConfig} {context : Context} {r : Simplifier} {d : Definition}
  {slot next : ℕ} {defs : List Definition}

/-- What may end an elimination early: without bounds only the limit of the simplifier and the limit
on the number of formulas. -/
def Interrupted (context : Context) (limit : ℕ) (e : Error) : Prop :=
  context = .unbounded → e = .stepsExceeded limit ∨ e = .internal "too many formulas"

/-- A goal on the way to one without a constant: its formulas are over the other constants, except
for those at and after a position that are not in the slot of the definition. -/
def Clears (V : Finset TermId) (x : TermId) (slot next : ℕ) (g : Goal) (s : Store) : Prop :=
  ∀ k e, g.entries[k]? = some e → s.Over (V.erase x) e.formula ∨
    (next ≤ k ∧ k ≠ slot ∧ g.inconsistent = false) ∧ s.Over V e.formula

/-- A visit of a slot brings a goal on its way. -/
theorem replaceIn_clears {proof : Entry} (recalls : Recalls rules False r s)
    (body : s.Over (V.erase d.1) d.2) (known : Clears V d.1 slot next g s)
    (found : g.entries[next]? = some e) (consistent : g.inconsistent = false) :
    (replaceIn context slot proof d next e g).Ensures r s
      (fun g' r' after => Recalls rules False r' after ∧ after.Over (V.erase d.1) d.2 ∧
        Clears V d.1 slot (next + 1) g' after)
      fun e _ _ => Interrupted context (stepLimit context.limits rules) e := by
  unfold replaceIn
  refine ensures_read_bind ?_
  split
  · have ranges : s.Over V e.formula :=
      (known next e found).elim (·.weaken (Finset.erase_subset ..)) (·.2)
    refine ensures_build_bind (Terms.substitute_over body ranges fun c member other =>
      Finset.mem_erase.mpr ⟨other, member⟩) fun image first grown replaced => ?_
    refine ensures_bind ((simplifyIn_over (recalls.mono grown False.elim) replaced).imp
      (fun _ _ _ _ simple => simple) fun e _ _ _ limited unbounded => .inl (limited unbounded))
      fun f r' second more simple => ?_
    refine ensures_build_bind_of_all fun justification third further => ?_
    have grown := (grown.trans more).trans further
    have inside : (Kind.ofConstants (V.erase d.1)).Member third f := simple.2.mono further
    refine (ensures_build (Goal.update_member (e := ⟨f, _, _⟩) consistent inside)).imp
      (fun g' r'' after last result => ?_) fun _ _ _ _ impossible => impossible
    obtain ⟨rfl, updated⟩ := result
    refine ⟨(simple.1.mono further False.elim).mono last False.elim, body.mono (grown.trans last),
      fun k e' there => ?_⟩
    obtain new | ⟨other, old, still⟩ := updated k e' there
    · exact .inl new
    · refine (known k e' old).imp (·.mono (grown.trans last)) fun rest => ?_
      exact ⟨⟨by omega, rest.1.2.1, still⟩, rest.2.mono (grown.trans last)⟩
  · next skipped =>
    refine ensures_pure ⟨recalls, body, fun k e' there => ?_⟩
    obtain done | ⟨⟨later, differ, _⟩, ranges⟩ := known k e' there
    · exact .inl done
    by_cases here : k = next
    · subst here
      obtain rfl := Option.some.inj (found.symm.trans there)
      have absent : s.occurs d.1 e.formula = false := by simpa [differ] using skipped
      exact .inl (ranges.erase absent)
    · exact .inr ⟨⟨by omega, differ, consistent⟩, ranges⟩

/-- A goal in which a constant is eliminated is over the other constants. -/
theorem eliminate_over (recalls : Recalls rules False r s) (consistent : g.inconsistent = false)
    (ranges : ∀ f ∈ g.formulas, s.Over V f) (body : s.Over (V.erase d.1) d.2) :
    (eliminate context slot d g).Ensures r s
      (fun g' r' after => Recalls rules False r' after ∧ after.Over (V.erase d.1) d.2 ∧
        ∀ f ∈ g'.formulas, after.Over (V.erase d.1) f)
      fun e _ _ => Interrupted context (stepLimit context.limits rules) e := by
  unfold eliminate
  dsimp only
  have trivial : (Kind.ofConstants (V.erase d.1)).Member s Store.trueId :=
    (Kind.ofConstants _).ofBool s true
  refine ensures_build_bind (Goal.update_member (e := ⟨_, none, none⟩) consistent trivial)
    fun cleared now grown updated => ?_
  have start : Clears V d.1 slot 0 cleared now := by
    intro k e there
    obtain new | ⟨other, old, still⟩ := updated k e there
    · exact .inl new
    · have member := List.mem_map_of_mem (f := Entry.formula) (List.mem_of_getElem? old)
      exact .inr ⟨⟨Nat.zero_le k, other, still⟩, (ranges _ member).mono grown⟩
  refine (Goal.visitAll_ensures (P := fun next g' r' now => Recalls rules False r' now ∧
    now.Over (V.erase d.1) d.2 ∧ Clears V d.1 slot next g' now)
    (fun _ _ _ _ _ known => replaceIn_clears known.1 known.2.1 known.2.2)
    (fun _ _ _ _ _ _ => .inr rfl)
    ⟨recalls.mono grown False.elim, body.mono grown, start⟩).imp
    (fun g' r' after _ result => ?_) fun _ _ _ _ early => early
  obtain ⟨last, ⟨recalls, body, clears⟩, ended⟩ := result
  refine ⟨recalls, body, fun f member => ?_⟩
  obtain ⟨e, among, rfl⟩ := List.mem_map.mp member
  obtain ⟨k, there⟩ := List.mem_iff_getElem?.mp among
  obtain done | ⟨⟨later, _, still⟩, _⟩ := clears k e there
  · exact done
  · have short : k < g'.size := (List.getElem?_eq_some_iff.mp there).1
    obtain refuted | small := ended
    · exact absurd (still.symm.trans refuted) Bool.false_ne_true
    · omega

/-- A round of the elimination: a definition and the goal in which its constant is replaced, if a
formula gives one. -/
def round (config : EquationConfig) (context : Context) (g : Goal) :
    Rewriting (Option (Definition × Goal)) := do
  if g.inconsistent then return none
  else
    match ← Attempt.build (candidate? config g 0 g.formulas) with
    | none => return none
    | some (slot, var, body) =>
      Attempt.check context
      let body ← Rewriting.simplifyIn context body
      let g ← eliminate context slot (var, body) g
      return some ((var, body), g)

/-- What follows a round: the other rounds, or nothing. -/
def afterRound (config : EquationConfig) (context : Context) (rounds : ℕ) (g : Goal) :
    Option (Definition × Goal) → Rewriting (Goal × List Definition)
  | none => return (g, [])
  | some (d, next) => do
    let (last, rest) ← eliminateAll config context rounds next
    return (last, d :: rest)

/-- Eliminating constants is one round after the other. -/
theorem eliminateAll_succ (rounds : ℕ) (g : Goal) :
    eliminateAll config context (rounds + 1) g =
      round config context g >>= afterRound config context rounds g := by
  unfold round
  rw [eliminateAll]
  split
  · rfl
  · simp only [bind_assoc]
    refine bind_congr fun found => ?_
    rcases found with _ | ⟨slot, var, body⟩
    · rfl
    · simp only [bind_assoc, pure_bind]
      rfl

/-- A round reads a definition and leaves a goal over the other constants, or does nothing. -/
theorem round_reads (recalls : Recalls rules False r s) (ranges : ∀ f ∈ g.formulas, s.Over V f) :
    (round config context g).Ensures r s
      (fun found r' after => Recalls rules False r' after ∧
        (found = none → r' = r ∧ after = s) ∧ ∀ d g', found = some (d, g') →
          Reads after V d ∧ ∀ f ∈ g'.formulas, after.Over (V.erase d.1) f)
      fun e _ _ => V.Nonempty ∧ Interrupted context (stepLimit context.limits rules) e := by
  unfold round
  split
  · exact ensures_pure ⟨recalls, fun _ => ⟨rfl, rfl⟩, by simp⟩
  next consistent =>
  refine ensures_build_bind (candidate?_reads ranges) fun found first grown known => ?_
  cases found with
  | none =>
    obtain rfl := known.1 rfl
    exact ensures_pure ⟨recalls, fun _ => ⟨rfl, rfl⟩, by simp⟩
  | some chosen =>
    obtain ⟨slot, x, body⟩ := chosen
    have reads := known.2 slot (x, body) rfl
    have some : V.Nonempty := ⟨x, reads.member⟩
    have consistent : g.inconsistent = false := by simpa using consistent
    refine ensures_bind (ensures_check.imp (fun _ _ _ _ same => same)
      fun _ _ _ _ bounded => ⟨some, fun free => absurd free bounded⟩) fun _ _ _ _ same => ?_
    obtain ⟨rfl, rfl⟩ := same
    refine ensures_bind ((simplifyIn_over (recalls.mono grown False.elim) reads.body).imp
      (fun _ _ _ _ simple => simple)
      fun _ _ _ _ limited => ⟨some, fun free => .inl (limited free)⟩)
      fun body' r' second more simple => ?_
    have ranges : ∀ f ∈ g.formulas, second.Over V f := fun f member =>
      (ranges f member).mono (grown.trans more)
    refine ensures_bind ((eliminate_over (d := (x, body')) simple.1 consistent ranges simple.2).imp
      (fun _ _ _ _ done => done) fun _ _ _ _ early => ⟨some, early⟩)
      fun g' r'' third further done => ?_
    obtain ⟨recalls, body, ranges⟩ := done
    refine ensures_pure ⟨recalls, by simp, fun d next same => ?_⟩
    obtain ⟨rfl, rfl⟩ := Prod.mk.inj (Option.some.inj same)
    have constant := ((reads.mono more).mono further).constant
    exact ⟨⟨constant, reads.member, body⟩, ranges⟩

/-- One definition after the other is read off formulas over a set of constants, which are then over
the others, and the constants of another set are left. -/
inductive ReadsAll (s : Store) : Finset TermId → List Definition → Finset TermId → Prop
  /-- No constant is eliminated. -/
  | done (V : Finset TermId) : ReadsAll s V [] V
  /-- A constant is eliminated, and then others. -/
  | next {V W : Finset TermId} {d : Definition} {rest : List Definition} (reads : Reads s V d)
    (later : ReadsAll s (V.erase d.1) rest W) : ReadsAll s V (d :: rest) W

/-- Eliminating constants one after the other leaves formulas over the constants that are left. -/
theorem eliminateAll_readsAll {rounds : ℕ} (recalls : Recalls rules False r s)
    (ranges : ∀ f ∈ g.formulas, s.Over V f) :
    (eliminateAll config context rounds g).Ensures r s
      (fun found _ after => ∃ W, ReadsAll after V found.2 W ∧
        ∀ f ∈ found.1.formulas, after.Over W f)
      fun e _ _ => Interrupted context (stepLimit context.limits rules) e := by
  induction rounds generalizing g r s V with
  | zero => exact ensures_pure ⟨V, .done V, ranges⟩
  | succ rounds later =>
    rw [eliminateAll_succ]
    refine ensures_bind ((round_reads recalls ranges).imp (fun _ _ _ _ found => found)
      fun _ _ _ _ early => early.2) fun found r' now grown known => ?_
    obtain ⟨recalls, _, reads⟩ := known
    rcases found with _ | ⟨d, next⟩
    · exact ensures_pure ⟨V, .done V, fun f member => (ranges f member).mono grown⟩
    · obtain ⟨reads, ranges⟩ := reads d next rfl
      refine ensures_bind (later recalls ranges) fun found _ after more known => ?_
      obtain ⟨W, readsAll, ranges⟩ := known
      exact ensures_pure ⟨W, .next (reads.mono more) readsAll, ranges⟩

/-- A goal over a number of constants is done after as many rounds: one more changes nothing. -/
theorem eliminateAll_run_succ {rounds : ℕ} (recalls : Recalls rules False r s)
    (ranges : ∀ f ∈ g.formulas, s.Over V f) (enough : V.card ≤ rounds) :
    ((eliminateAll config context (rounds + 1) g).runFrom r).run s =
      ((eliminateAll config context rounds g).runFrom r).run s := by
  induction rounds generalizing g r s V with
  | zero =>
    -- Without constants there is nothing to read, so nothing is done and nothing can fail.
    have empty : V = ∅ := Finset.card_eq_zero.mp (Nat.le_zero.mp enough)
    have nothing : (round config context g).Ensures r s
        (fun found r' after => found = none ∧ r' = r ∧ after = s) fun _ _ _ => False := by
      refine (round_reads recalls ranges).imp (fun found r' after _ known => ?_)
        fun _ _ _ _ early => Finset.not_nonempty_empty (empty ▸ early.1)
      obtain ⟨_, unchanged, reads⟩ := known
      rcases found with _ | ⟨d, next⟩
      · exact ⟨rfl, unchanged rfl⟩
      · exact absurd (reads d next rfl).1.member (empty ▸ Finset.notMem_empty d.1)
    obtain ⟨found, r', after, ran, rfl, rfl, rfl⟩ := nothing.exists_ok
    rw [eliminateAll_succ, run_bind, ran]
    rfl
  | succ rounds later =>
    rw [eliminateAll_succ, eliminateAll_succ]
    refine (round_reads recalls ranges).run_bind_congr fun found r' now known => ?_
    obtain ⟨recalls, _, reads⟩ := known
    rcases found with _ | ⟨d, next⟩
    · rfl
    · obtain ⟨reads, ranges⟩ := reads d next rfl
      have fewer : (V.erase d.1).card ≤ rounds := by
        have shrunk := Finset.card_erase_of_mem reads.member
        omega
      show (((eliminateAll config context (rounds + 1) next) >>= _).runFrom r').run now =
        (((eliminateAll config context rounds next) >>= _).runFrom r').run now
      rw [run_bind, run_bind, later recalls ranges fewer]

/-- A goal is done after as many rounds as it has constants: more of them change nothing. -/
theorem eliminateAll_run_of_card_le {rounds : ℕ} (recalls : Recalls rules False r s)
    (ranges : ∀ f ∈ g.formulas, s.Over V f) (enough : V.card ≤ rounds) :
    ((eliminateAll config context rounds g).runFrom r).run s =
      ((eliminateAll config context V.card g).runFrom r).run s := by
  induction rounds, enough using Nat.le_induction with
  | base => rfl
  | succ rounds enough same => rw [eliminateAll_run_succ recalls ranges enough, same]

end Elimination

/-- Definitions are triangular: no constant is defined twice, and a constant that is defined occurs
neither in its own definition nor in a later one. -/
structure Triangular (s : Store) (defs : List Definition) : Prop where
  /-- The constants differ. -/
  nodup : (defs.map Prod.fst).Nodup
  /-- No constant occurs in its definition. -/
  own : ∀ d ∈ defs, ¬s.Occurs d.1 d.2
  /-- No constant occurs in a later definition. -/
  later : defs.Pairwise fun d e => ¬s.Occurs d.1 e.2

namespace ReadsAll

variable {defs : List Definition} {d : Definition}

/-- Definitions that are read one after the other stay so when the store grows. -/
theorem mono (readsAll : ReadsAll s V defs W) (grown : s.Extends after) :
    ReadsAll after V defs W := by
  induction readsAll with
  | done V => exact .done V
  | next reads _ known => exact .next (reads.mono grown) known

/-- The constants that are left are among those that were there. -/
theorem subset (readsAll : ReadsAll s V defs W) : W ⊆ V := by
  induction readsAll with
  | done => exact Finset.Subset.refl _
  | next reads _ fewer => exact fewer.trans (Finset.erase_subset _ _)

/-- Every definition takes one constant away. -/
theorem length_add_card (readsAll : ReadsAll s V defs W) : defs.length + W.card = V.card := by
  induction readsAll with
  | done => exact Nat.zero_add _
  | next reads _ total =>
    have positive := Finset.card_pos.mpr ⟨_, reads.member⟩
    rw [Finset.card_erase_of_mem reads.member] at total
    rw [List.length_cons]
    omega

/-- Every definition is one of a constant that is not left. -/
theorem reads (readsAll : ReadsAll s V defs W) : ∀ d ∈ defs, Reads s V d ∧ d.1 ∉ W := by
  induction readsAll with
  | done => simp
  | next reads later known =>
    refine List.forall_mem_cons.mpr ⟨⟨reads, fun left => ?_⟩, fun d member => ?_⟩
    · exact absurd (later.subset left) (Finset.notMem_erase _ _)
    · exact (known d member).imp (·.weaken (Finset.erase_subset _ _)) id

/-- Definitions that are read one after the other are triangular. -/
theorem triangular (readsAll : ReadsAll s V defs W) : Triangular s defs := by
  induction readsAll with
  | done => exact ⟨.nil, by simp, .nil⟩
  | @next V W d rest reads later known =>
    refine ⟨List.nodup_cons.mpr ⟨fun again => ?_, known.nodup⟩,
      List.forall_mem_cons.mpr ⟨?_, known.own⟩,
      List.pairwise_cons.mpr ⟨fun e member => ?_, known.later⟩⟩
    · obtain ⟨e, member, same⟩ := List.mem_map.mp again
      exact Finset.notMem_erase d.1 V (same ▸ (later.reads e member).1.member)
    · exact reads.not_occurs reads.body (Finset.notMem_erase _ _)
    · exact reads.not_occurs ((later.reads e member).1.body.weaken (Finset.erase_subset _ _))
        (Finset.notMem_erase _ _)

end ReadsAll

section Constants

/-- The constants of a goal are the free constants of its formulas. -/
theorem mem_constants {c : TermId} :
    c ∈ Measure.constants s g ↔ ∃ f ∈ g.formulas, c ∈ s.freeConstants f := by
  have inner (terms : List TermId) (found : Std.HashSet TermId) :
      c ∈ terms.foldl (·.insert ·) found ↔ c ∈ found ∨ c ∈ terms := by
    induction terms generalizing found with
    | nil => simp
    | cons t rest tail =>
      rw [List.foldl_cons, tail, Std.HashSet.mem_insert, beq_iff_eq, List.mem_cons]
      tauto
  have outer (formulas : List TermId) (found : Std.HashSet TermId) :
      c ∈ formulas.foldl (fun found f => (s.freeConstants f).foldl (·.insert ·) found) found ↔
        c ∈ found ∨ ∃ f ∈ formulas, c ∈ s.freeConstants f := by
    induction formulas generalizing found with
    | nil => simp
    | cons f rest tail =>
      rw [List.foldl_cons, tail, inner, List.exists_mem_cons_iff, or_assoc]
  rw [Measure.constants, outer]
  simp

/-- The constants of a goal as a finite set. -/
def constantSet (s : Store) (g : Goal) : Finset TermId := (Measure.constants s g).toList.toFinset

/-- The finite set has the constants of the goal. -/
theorem mem_constantSet {c : TermId} : c ∈ constantSet s g ↔ c ∈ Measure.constants s g := by
  rw [constantSet, List.mem_toFinset, Std.HashSet.mem_toList]

/-- The finite set has as many members as the goal has constants. -/
theorem card_constantSet : (constantSet s g).card = (Measure.constants s g).size := by
  have distinct : (Measure.constants s g).toList.Nodup :=
    Std.HashSet.distinct_toList.imp fun {_ _} differ => by simpa using differ
  rw [constantSet, List.toFinset_card_of_nodup distinct, Std.HashSet.length_toList]

/-- The formulas of a goal without quantifiers are over its constants. -/
theorem over_constantSet (plain : ∀ f ∈ g.formulas, f < s.size ∧ s.Plain f) :
    ∀ f ∈ g.formulas, s.Over (constantSet s g) f := fun f member =>
  { inside := (plain f member).1
    plain := (plain f member).2
    constants := fun _ _ occurs var => mem_constantSet.mpr (mem_constants.mpr
      ⟨f, member, Store.mem_freeConstants (plain f member).2 occurs var⟩) }

/-- A goal has no more constants than subterms. -/
theorem constants_size_le (inside : ∀ f ∈ g.formulas, f < s.size) :
    (Measure.constants s g).size ≤ g.exprCount s := by
  have among : constantSet s g ⊆ (s.subtermsOfAll g.formulas).toFinset := by
    intro c member
    obtain ⟨f, formula, free⟩ := mem_constants.mp (mem_constantSet.mp member)
    exact List.mem_toFinset.mpr (Store.mem_subtermsOfAll inside formula
      (Store.occurs_of_mem_freeConstants free).1)
  rw [← card_constantSet]
  exact (Finset.card_le_card among).trans (List.toFinset_card_le _)

end Constants

section Run

open Attempt Rewriting

variable {solver : EquationSolver} {context : Context}

/-- What an elimination leaves: the definitions are read off formulas over the constants of the
goal, one after the other, and the formulas that are left are over the other constants. -/
theorem solve_readsAll {config : EquationConfig} {rules : SimplifierConfig} {r : Simplifier}
    (recalls : Recalls rules False r s) (ranges : ∀ f ∈ g.formulas, s.Over V f) :
    (solve config context g).Ensures r s
      (fun found _ after => ∃ W, ReadsAll after V found.2 W ∧
        ∀ f ∈ found.1.formulas, after.Over W f)
      fun e _ _ => Interrupted context (stepLimit context.limits rules) e := by
  unfold solve
  refine ensures_read_bind (ensures_bind (eliminateAll_readsAll recalls ranges)
    fun found r' now _ known => ?_)
  obtain ⟨W, readsAll, ranges⟩ := known
  refine ensures_build_bind (Goal.elimRedundancies_member (K := .ofConstants W) ranges)
    fun g' after grown ranges => ensures_pure ⟨W, readsAll.mono grown, ranges⟩

/-- **Triangular definitions.** On a goal without quantifiers the elimination is done after as many
rounds as the goal has constants: allowing any larger number of rounds gives the same run, and so
does the bound that it sets itself. It eliminates at most as many constants. Its definitions are
triangular, they define constants of the goal by terms over constants of the goal, and no constant
that is defined occurs in the goal that is left. Without bounds it fails only at the limit of the
simplifier or of the number of formulas. -/
theorem run_triangular (solver : EquationSolver) (context : Context)
    (plain : ∀ f ∈ g.formulas, f < s.size ∧ s.Plain f) :
    (∀ rounds, (Measure.constants s g).size ≤ rounds →
      ((eliminateAll solver.config context rounds g).runFrom solver.simplifier.reset).run s =
        ((eliminateAll solver.config context (g.exprCount s + 1) g).runFrom
          solver.simplifier.reset).run s) ∧
    (solver.run context g).Ensures s fun found after =>
      (∀ r, found.1 = .ok r → ∃ g' defs, r = result g' defs ∧
        found.2.eliminated = defs.length ∧ defs.length ≤ (Measure.constants s g).size ∧
        Triangular after defs ∧
        (∀ d ∈ defs, d.1 ∈ Measure.constants s g ∧ (∀ f ∈ g'.formulas, ¬after.Occurs d.1 f) ∧
          ∀ c name, after.Occurs c d.2 → after.op c = .var name → c ∈ Measure.constants s g)) ∧
      ∀ e, found.1 = .error e →
        Interrupted context (stepLimit context.limits solver.simplifier.config) e := by
  have ranges := over_constantSet plain
  have recalls : Recalls solver.simplifier.config False solver.simplifier.reset s :=
    .of_empty rfl False.elim rfl
  constructor
  · intro rounds enough
    have bound := constants_size_le fun f member => (plain f member).1
    rw [← card_constantSet] at enough bound
    rw [eliminateAll_run_of_card_le recalls ranges enough,
      eliminateAll_run_of_card_le recalls ranges (bound.trans (Nat.le_succ _))]
  · obtain ⟨config, simplifier, _⟩ := solver
    have solved : (solve config context g).Ensures simplifier.reset s _ _ :=
      solve_readsAll recalls ranges
    unfold run
    refine Terms.ensures_bind solved fun found after _ known => ?_
    obtain ⟨outcome, r⟩ := found
    cases outcome with
    | error e =>
      refine Terms.ensures_pure ⟨by simp, fun _ same => ?_⟩
      obtain rfl := Except.error.inj same
      exact known
    | ok found =>
      obtain ⟨W, readsAll, left⟩ := known
      refine Terms.ensures_pure ⟨fun _ same => ?_, by simp⟩
      obtain rfl := Except.ok.inj same
      have total := readsAll.length_add_card
      rw [card_constantSet] at total
      refine ⟨found.1, found.2, rfl, rfl, by omega, readsAll.triangular, fun d member => ?_⟩
      obtain ⟨reads, out⟩ := readsAll.reads d member
      refine ⟨mem_constantSet.mp reads.member,
        fun f formula => reads.not_occurs (left f formula) out, fun c name occurs var => ?_⟩
      exact mem_constantSet.mp (Finset.mem_of_mem_erase (reads.body.constants c name occurs var))

/-- An equation of two constants. -/
def equation : Terms (TermId × TermId × TermId) := do
  let x ← Terms.mkVar "x" .int
  let y ← Terms.mkVar "y" .int
  return (x, y, ← Terms.mkEq x y)

/-- The nodes of the equation. -/
theorem equation_nodes : equation.Ensures s fun terms after =>
    terms.2.2 < after.size ∧ after.view terms.2.2 = (.eq, [terms.1, terms.2.1]) ∧
      after.node terms.1 = ⟨.var "x", [], .int⟩ ∧ after.node terms.2.1 = ⟨.var "y", [], .int⟩ := by
  refine Terms.ensures_bind (Terms.mkVar_node "x" .int) fun x first _ one => ?_
  refine Terms.ensures_bind (Terms.mkVar_node "y" .int) fun y second grown two => ?_
  have inside : ∀ a ∈ [x, y], a < second.size := by simpa using ⟨grown.lt_size one.1, two.1⟩
  have built : (Terms.mkApp .eq [x, y]).Ensures second _ := Terms.mkApp_node inside
  refine Terms.ensures_bind built fun f after more known => Terms.ensures_pure ?_
  refine ⟨known.1, by rw [Store.view, known.2], ?_, ?_⟩
  · rw [more.node_eq (grown.lt_size one.1), grown.node_eq one.1, one.2]
  · rw [more.node_eq two.1, two.2]

/-- An equation of two integer constants is read as a definition of the first one, and its goal is
solved by triangular definitions. -/
theorem run_triangular_equation : ∃ (s : Store) (g : Goal) (x y f : TermId),
    g.formulas = [f] ∧ (∀ f ∈ g.formulas, f < s.size ∧ s.Plain f) ∧
    ((candidate? {} g 0 g.formulas).run s).1 = some (0, x, y) ∧
    (({} : EquationSolver).run .unbounded g).Ensures s fun found after =>
      (∀ r, found.1 = .ok r → ∃ g' defs, r = result g' defs ∧
        found.2.eliminated = defs.length ∧ Triangular after defs) ∧
      ∀ e, found.1 = .error e →
        e = .stepsExceeded 18446744073709551615 ∨ e = .internal "too many formulas" := by
  have built := equation_nodes (s := .initial)
  unfold Terms.Ensures at built
  generalize (equation.run .initial).2 = s at built
  generalize (equation.run .initial).1 = terms at built
  obtain ⟨x, y, f⟩ := terms
  obtain ⟨inside, view, first, second⟩ := built
  let g : Goal := { entries := [⟨f, none, none⟩], models := true, proofs := false, cores := false }
  have leaf {c : TermId} {name : String} (node : s.node c = ⟨.var name, [], .int⟩) : s.Plain c := by
    intro u occurs
    obtain rfl | ⟨a, member, _⟩ := occurs.cases
    · exact ⟨by rw [Store.op, node]; rfl, fun _ _ => by rw [Store.args, node]⟩
    · rw [Store.args, node] at member
      cases member
  have plain : ∀ f ∈ g.formulas, f < s.size ∧ s.Plain f := by
    intro _ member
    obtain rfl := List.mem_singleton.mp member
    obtain ⟨head, arguments⟩ := Store.view_eq_iff.mp view
    refine ⟨inside, fun u occurs => ?_⟩
    obtain rfl | ⟨a, argument, below⟩ := occurs.cases
    · rw [head]
      exact ⟨rfl, by simp⟩
    · rw [arguments] at argument
      obtain rfl | ⟨rfl⟩ := by simpa using argument
      · exact leaf first u below
      · exact leaf second u below
  have other : x ≠ y := by
    rintro rfl
    exact absurd (first.symm.trans second) (by simp)
  have absent : s.occurs x y = false := Store.occurs_of_args_nil (by rw [Store.args, second]) other
  refine ⟨s, g, x, y, f, rfl, plain, ?_, ?_⟩
  · have direct : direct? s x y = some (x, y) := by
      simp [direct?, Store.isVar, Store.varName?, Store.op, Store.sortOf, first, second, absent]
    have admitted : admits {} s g x = true := by
      have few : g.formulas.countP (s.occurs x) ≤ 1 := List.countP_le_length
      exact decide_eq_true (few.trans (by decide))
    have reads : (definition? {} g f).run s = (some (x, y), s) := by
      unfold definition?
      simp only [Terms.run_bind, Terms.run_read, view, direct, Option.filter, admitted,
        ↓reduceIte, Option.some_or]
      rfl
    show ((candidate? {} g 0 [f]).run s).1 = _
    rw [candidate?, Terms.run_bind, reads]
    rfl
  · refine (run_triangular {} .unbounded plain).2.imp fun found after _ known => ?_
    refine ⟨fun r ok => ?_, fun e error => known.2 e error rfl⟩
    obtain ⟨g', defs, rfl, count, _, triangular, _⟩ := known.1 r ok
    exact ⟨g', defs, rfl, count, triangular⟩

end Run

end EquationSolver

end Stratagem
