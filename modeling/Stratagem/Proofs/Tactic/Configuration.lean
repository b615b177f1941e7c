import Stratagem.Proofs.Tactic.Parameter

/-!
# Configurations that parameter sets give

A set that gives suitable values to all parameters of a part determines the configuration of the
part, whatever it was before, and gives every part of the same kind the same one. It is the
configuration that the part has exactly if the set includes its parameters.
-/
namespace Stratagem

namespace Params

variable {p q : Params} {name : String} {v : ParamValue}

/-- A set gives a suitable value to a name. -/
def Gives (p : Params) (name : String) : Prop :=
  ∃ v, p.get? name = some v ∧ Suits (normalize name) v

/-- A set gives suitable values to all names to which another one gives values. -/
def Covers (p q : Params) : Prop := ∀ name v, q.get? name = some v → p.Gives name

/-- A set gives the values that another one gives. -/
def Includes (p q : Params) : Prop := ∀ name v, q.get? name = some v → p.get? name = some v

/-- The truth value under a name. -/
def choice (p : Params) (name : String) : Bool :=
  match p.get? name with
  | some (.bool b) => b
  | _ => false

/-- The number under a name. -/
def number (p : Params) (name : String) : ℕ :=
  match p.get? name with
  | some (.uint n) => n
  | _ => 0

/-- A suitable value of a choice is a truth value. -/
theorem Gives.get?_choice (gives : p.Gives name) (choice : normalize name ∉ numbers) :
    p.get? name = some (.bool (p.choice name)) := by
  obtain ⟨v, found, suits⟩ := gives
  cases v with
  | bool b => rw [Params.choice, found]
  | uint n => exact absurd suits.1 choice
  | double | symbol => exact suits.elim

/-- A suitable value of a limit is a number. -/
theorem Gives.get?_number (gives : p.Gives name) (number : normalize name ∈ numbers) :
    p.get? name = some (.uint (p.number name)) := by
  obtain ⟨v, found, suits⟩ := gives
  cases v with
  | bool b => exact absurd number suits
  | uint n => rw [Params.number, found]
  | double | symbol => exact suits.elim

/-- A set gives a choice exactly if it is the truth value under its name. -/
theorem Gives.get?_eq_bool_iff (gives : p.Gives name) (choice : normalize name ∉ numbers)
    {b : Bool} : p.get? name = some (.bool b) ↔ p.choice name = b := by
  rw [gives.get?_choice choice, Option.some.injEq, ParamValue.bool.injEq]

/-- A set gives a limit exactly if it is the number under its name. -/
theorem Gives.get?_eq_uint_iff (gives : p.Gives name) (number : normalize name ∈ numbers) {n : ℕ} :
    p.get? name = some (.uint n) ↔ p.number name = n := by
  rw [gives.get?_number number, Option.some.injEq, ParamValue.uint.injEq]

/-- A suitable largest degree has at most 32 bits. -/
theorem Gives.maxDegree_lt (gives : p.Gives "max-degree") :
    p.number "max-degree" < 4294967296 := by
  obtain ⟨v, found, suits⟩ := gives
  cases v with
  | bool b => exact absurd (by decide) suits
  | uint n =>
    rw [Params.number, found]
    exact suits.2 (by decide)
  | double | symbol => exact suits.elim

section Lists

variable {entries others : List (String × ParamValue)}

/-- A set that covers values set under distinct names gives a value to each name. -/
theorem Covers.each (covers : p.Covers (ofList entries))
    (distinct : (entries.map fun e => normalize e.1).Nodup) : ∀ e ∈ entries, p.Gives e.1 :=
  fun e inside => covers e.1 e.2 (get?_ofList distinct inside)

/-- A set includes values that are set under distinct names if it gives each of them. -/
theorem includes_ofList (distinct : (entries.map fun e => normalize e.1).Nodup) :
    p.Includes (ofList entries) ↔ ∀ e ∈ entries, p.get? e.1 = some e.2 := by
  constructor
  · exact fun includes e inside => includes e.1 e.2 (get?_ofList distinct inside)
  · intro each name v found
    obtain ⟨e, inside, same, rfl⟩ := exists_of_get?_ofList found
    have given := each e inside
    unfold get? at given ⊢
    rwa [← same]

/-- Suitable values that are set under distinct names cover any values under the same names. -/
theorem ofList_covers (distinct : (entries.map fun e => normalize e.1).Nodup)
    (same : others.map (·.1) = entries.map (·.1))
    (suits : ∀ e ∈ entries, Suits (normalize e.1) e.2) : (ofList entries).Covers (ofList others) := by
  intro name v found
  obtain ⟨other, inside, normal, -⟩ := exists_of_get?_ofList found
  obtain ⟨e, member, known⟩ : ∃ e ∈ entries, e.1 = other.1 :=
    List.mem_map.mp (same ▸ List.mem_map_of_mem inside)
  have given : (ofList entries).get? e.1 = some e.2 := get?_ofList distinct member
  have suitable := suits e member
  unfold Gives get? at *
  rw [← normal, ← known]
  exact ⟨e.2, given, suitable⟩

end Lists

/-- A choice takes any truth value. -/
theorem suits_bool (choice : name ∉ numbers) (b : Bool) : Suits name (.bool b) := choice

/-- A limit other than the largest degree takes any number. -/
theorem suits_uint (number : name ∈ numbers) (unbounded : name ≠ "max-degree") (n : ℕ) :
    Suits name (.uint n) := ⟨number, fun bounded => absurd bounded unbounded⟩

end Params

namespace Update

open Params

variable {σ : Type} {p : Params} {name : String} {u w : Update σ Unit} {c d : σ}

/-- A change that succeeds, and then another one. -/
theorem apply_bind (first : u.apply c = (.ok (), d)) : Update.apply (do u; w) c = w.apply d := by
  have run : Update.apply (do u; w) c =
      ExceptT.bindCont (m := StateM σ) (fun _ => w) (u.apply c).1 (u.apply c).2 := rfl
  rw [run, first]
  rfl

/-- Reading a truth value that the set gives. -/
theorem apply_bool {field : σ → Bool} {put : σ → Bool → σ} (gives : p.Gives name)
    (choice : normalize name ∉ numbers) :
    (Update.bool p name field put).apply c = (.ok (), put c (p.choice name)) := by
  have read : p.getBool name (field c) = .ok (p.choice name) := by
    rw [getBool, gives.get?_choice choice]
  have run : (Update.bool p name field put).apply c =
      ExceptT.bindCont (m := StateM σ) (fun b => modify (put · b)) (p.getBool name (field c)) c := rfl
  rw [run, read]
  rfl

/-- Reading a number that the set gives. -/
theorem apply_uint {field : σ → ℕ} {put : σ → ℕ → σ} (gives : p.Gives name)
    (number : normalize name ∈ numbers) :
    (Update.uint p name field put).apply c = (.ok (), put c (p.number name)) := by
  have read : p.getUInt name (field c) = .ok (p.number name) := by
    rw [getUInt, gives.get?_number number]
  have run : (Update.uint p name field put).apply c =
      ExceptT.bindCont (m := StateM σ) (fun n => modify (put · n)) (p.getUInt name (field c)) c := rfl
  rw [run, read]
  rfl

end Update

open Params

variable {p : Params}

/-- The choices of a simplifier that a set gives. -/
def SimplifierConfig.given (p : Params) : SimplifierConfig where
  maxSteps := p.number "max-steps"
  flat := p.choice "flat"
  elimAnd := p.choice "elim-and"
  arithLhs := p.choice "arith-lhs"
  gcdRounding := p.choice "gcd-rounding"
  eq2ineq := p.choice "eq2ineq"
  elimToReal := p.choice "elim-to-real"
  pushToReal := p.choice "push-to-real"
  sortSums := p.choice "sort-sums"
  maxDegree := (p.number "max-degree").toUInt32
  expandPower := p.choice "expand-power"
  mulToPower := p.choice "mul-to-power"
  expandTan := p.choice "expand-tan"
  elimRem := p.choice "elim-rem"
  algebraicNumberEvaluator := p.choice "algebraic-number-evaluator"
  som := p.choice "som"

/-- The choices of an elimination of constants that a set gives. -/
def EquationConfig.given (p : Params) : EquationConfig where
  maxOccs := p.number "solve-eqs-max-occs"
  theorySolver := p.choice "theory-solver"

/-- The choices of a bit-blaster that a set gives. -/
def BlastConfig.given (p : Params) : BlastConfig where
  add := p.choice "blast-add"
  mul := p.choice "blast-mul"
  quantified := p.choice "blast-quant"
  full := p.choice "blast-full"
  maxMemory := p.number "max-memory"
  maxSteps := p.number "max-steps"

/-- The names of the parameters of a simplifier are distinct. -/
theorem SimplifierConfig.distinct : (["max-steps", "flat", "elim-and", "arith-lhs", "gcd-rounding",
    "eq2ineq", "elim-to-real", "push-to-real", "sort-sums", "max-degree", "expand-power",
    "mul-to-power", "expand-tan", "elim-rem", "algebraic-number-evaluator", "som"].map
      normalize).Nodup := by decide

/-- The names of the parameters of an elimination of constants are distinct. -/
theorem EquationConfig.distinct :
    (["solve-eqs-max-occs", "theory-solver"].map normalize).Nodup := by decide

/-- The names of the parameters of a bit-blaster are distinct. -/
theorem BlastConfig.distinct : (["max-memory", "max-steps", "blast-add", "blast-mul", "blast-quant",
    "blast-full"].map normalize).Nodup := by decide

/-- A set that covers the parameters of a simplifier determines its configuration. -/
theorem SimplifierConfig.update_given {d : SimplifierConfig} (covers : p.Covers d.toParams)
    (c : SimplifierConfig) : (update p).apply c = (.ok (), given p) := by
  unfold toParams at covers
  have covers := covers.each distinct
  simp only [List.forall_mem_cons] at covers
  obtain ⟨maxSteps, flat, elimAnd, arithLhs, gcdRounding, eq2ineq, elimToReal, pushToReal, sortSums,
    maxDegree, expandPower, mulToPower, expandTan, elimRem, evaluator, som, -⟩ := covers
  have degree (c : SimplifierConfig) : (updateMaxDegree p).apply c =
      (.ok (), { c with maxDegree := (p.number "max-degree").toUInt32 }) := by
    have run : (updateMaxDegree p).apply c = ExceptT.bindCont (m := StateM SimplifierConfig)
        (fun n => do
          if 4294967296 ≤ n then
            throw (.invalidParameter "max-degree" "value does not fit in 32 bits")
          modify fun c => { c with maxDegree := n.toUInt32 })
        (p.getUInt "max-degree" c.maxDegree.toNat) c := rfl
    rw [run, getUInt, maxDegree.get?_number (by decide)]
    simp only [ExceptT.bindCont, if_neg (Nat.not_le.mpr maxDegree.maxDegree_lt)]
    rfl
  unfold update
  rw [Update.apply_bind (Update.apply_uint maxSteps (by decide)),
    Update.apply_bind (Update.apply_bool flat (by decide)),
    Update.apply_bind (Update.apply_bool elimAnd (by decide)),
    Update.apply_bind (Update.apply_bool arithLhs (by decide)),
    Update.apply_bind (Update.apply_bool gcdRounding (by decide)),
    Update.apply_bind (Update.apply_bool eq2ineq (by decide)),
    Update.apply_bind (Update.apply_bool elimToReal (by decide)),
    Update.apply_bind (Update.apply_bool pushToReal (by decide)),
    Update.apply_bind (Update.apply_bool sortSums (by decide)),
    Update.apply_bind (degree _),
    Update.apply_bind (Update.apply_bool expandPower (by decide)),
    Update.apply_bind (Update.apply_bool mulToPower (by decide)),
    Update.apply_bind (Update.apply_bool expandTan (by decide)),
    Update.apply_bind (Update.apply_bool elimRem (by decide)),
    Update.apply_bind (Update.apply_bool evaluator (by decide)),
    Update.apply_bool som (by decide)]
  rfl

/-- A configuration is the one that a set gives exactly if the set includes its parameters. -/
theorem SimplifierConfig.given_eq_iff {c : SimplifierConfig} (covers : p.Covers c.toParams) :
    given p = c ↔ p.Includes c.toParams := by
  unfold toParams at covers ⊢
  have covers := covers.each distinct
  refine Iff.trans ?_ (Iff.symm (includes_ofList distinct))
  simp only [List.forall_mem_cons] at covers ⊢
  obtain ⟨maxSteps, flat, elimAnd, arithLhs, gcdRounding, eq2ineq, elimToReal, pushToReal, sortSums,
    maxDegree, expandPower, mulToPower, expandTan, elimRem, evaluator, som, -⟩ := covers
  have degree : (p.number "max-degree").toUInt32 = c.maxDegree ↔
      p.number "max-degree" = c.maxDegree.toNat := by
    constructor
    · intro same
      rw [← same, UInt32.toNat_ofNat_of_lt' maxDegree.maxDegree_lt]
    · intro same
      rw [same, Nat.toUInt32_eq, UInt32.ofNat_toNat]
  rw [maxSteps.get?_eq_uint_iff (by decide), flat.get?_eq_bool_iff (by decide),
    elimAnd.get?_eq_bool_iff (by decide), arithLhs.get?_eq_bool_iff (by decide),
    gcdRounding.get?_eq_bool_iff (by decide), eq2ineq.get?_eq_bool_iff (by decide),
    elimToReal.get?_eq_bool_iff (by decide), pushToReal.get?_eq_bool_iff (by decide),
    sortSums.get?_eq_bool_iff (by decide), maxDegree.get?_eq_uint_iff (by decide),
    expandPower.get?_eq_bool_iff (by decide), mulToPower.get?_eq_bool_iff (by decide),
    expandTan.get?_eq_bool_iff (by decide), elimRem.get?_eq_bool_iff (by decide),
    evaluator.get?_eq_bool_iff (by decide), som.get?_eq_bool_iff (by decide), ← degree]
  obtain ⟨⟩ := c
  simp only [given, mk.injEq, List.not_mem_nil, false_implies, implies_true, and_true]

/-- A set that covers the parameters of an elimination of constants determines its configuration. -/
theorem EquationConfig.update_given {d : EquationConfig} (covers : p.Covers d.toParams)
    (c : EquationConfig) : (update p).apply c = (.ok (), given p) := by
  unfold toParams at covers
  have covers := covers.each distinct
  simp only [List.forall_mem_cons] at covers
  obtain ⟨maxOccs, theorySolver, -⟩ := covers
  unfold update
  rw [Update.apply_bind (Update.apply_uint maxOccs (by decide)),
    Update.apply_bool theorySolver (by decide)]
  rfl

/-- A configuration is the one that a set gives exactly if the set includes its parameters. -/
theorem EquationConfig.given_eq_iff {c : EquationConfig} (covers : p.Covers c.toParams) :
    given p = c ↔ p.Includes c.toParams := by
  unfold toParams at covers ⊢
  have covers := covers.each distinct
  refine Iff.trans ?_ (Iff.symm (includes_ofList distinct))
  simp only [List.forall_mem_cons] at covers ⊢
  obtain ⟨maxOccs, theorySolver, -⟩ := covers
  rw [maxOccs.get?_eq_uint_iff (by decide), theorySolver.get?_eq_bool_iff (by decide)]
  obtain ⟨⟩ := c
  simp only [given, mk.injEq, List.not_mem_nil, false_implies, implies_true, and_true]

/-- A set that covers the parameters of a bit-blaster determines its configuration. -/
theorem BlastConfig.update_given {d : BlastConfig} (covers : p.Covers d.toParams)
    (c : BlastConfig) : (update p).apply c = (.ok (), given p) := by
  unfold toParams at covers
  have covers := covers.each distinct
  simp only [List.forall_mem_cons] at covers
  obtain ⟨maxMemory, maxSteps, add, mul, quantified, full, -⟩ := covers
  unfold update
  rw [Update.apply_bind (Update.apply_uint maxMemory (by decide)),
    Update.apply_bind (Update.apply_uint maxSteps (by decide)),
    Update.apply_bind (Update.apply_bool add (by decide)),
    Update.apply_bind (Update.apply_bool mul (by decide)),
    Update.apply_bind (Update.apply_bool quantified (by decide)),
    Update.apply_bool full (by decide)]
  rfl

/-- A configuration is the one that a set gives exactly if the set includes its parameters. -/
theorem BlastConfig.given_eq_iff {c : BlastConfig} (covers : p.Covers c.toParams) :
    given p = c ↔ p.Includes c.toParams := by
  unfold toParams at covers ⊢
  have covers := covers.each distinct
  refine Iff.trans ?_ (Iff.symm (includes_ofList distinct))
  simp only [List.forall_mem_cons] at covers ⊢
  obtain ⟨maxMemory, maxSteps, add, mul, quantified, full, -⟩ := covers
  rw [maxMemory.get?_eq_uint_iff (by decide), maxSteps.get?_eq_uint_iff (by decide),
    add.get?_eq_bool_iff (by decide), mul.get?_eq_bool_iff (by decide),
    quantified.get?_eq_bool_iff (by decide), full.get?_eq_bool_iff (by decide)]
  obtain ⟨⟩ := c
  simp only [given, mk.injEq, List.not_mem_nil, false_implies, implies_true, and_true]
  constructor
  · exact fun ⟨add, mul, quantified, full, memory, steps⟩ =>
      ⟨memory, steps, add, mul, quantified, full⟩
  · exact fun ⟨memory, steps, add, mul, quantified, full⟩ =>
      ⟨add, mul, quantified, full, memory, steps⟩

namespace Tactic

variable {t u w : Tactic}

/-- Two parts are of one kind: they differ in their configuration and working state only. -/
inductive SameKind : Tactic → Tactic → Prop
  | simplify (name : String) (x y : Simplifier) : SameKind (.simplify name x) (.simplify name y)
  | solveEqs (x y : EquationSolver) : SameKind (.solveEqs x) (.solveEqs y)
  | splitClause (a b : Bool) : SameKind (.splitClause a) (.splitClause b)
  | bitBlast (x y : Blaster) : SameKind (.bitBlast x) (.bitBlast y)
  | skip : SameKind .skip .skip
  | fail (reason : String) : SameKind (.fail reason) (.fail reason)
  | failIfUndecided : SameKind .failIfUndecided .failIfUndecided
  | failIf (probe : Probe) : SameKind (.failIf probe) (.failIf probe)
  | custom (name : String) (reply : Goal → Except Error TacticResult) :
    SameKind (.custom name reply) (.custom name reply)

/-- Two parts of the kind of a third one are of one kind. -/
theorem SameKind.trans (first : SameKind t u) (second : SameKind u w) : SameKind t w := by
  cases first <;> cases second <;> constructor

/-- A part of some kind is of that kind after a change of parameters. -/
theorem SameKind.update (p : Params) (kind : SameKind t u) : SameKind t (u.update p).2 := by
  cases kind with
  | splitClause a b =>
    unfold Tactic.update
    split <;> exact .splitClause a _
  | _ =>
    unfold Tactic.update
    constructor

/-- Parts of one kind have suitable values of the same parameters. -/
theorem SameKind.covers (kind : SameKind t u) : t.params.Covers u.params := by
  cases kind with
  | simplify name x y =>
    rw [params, params, SimplifierConfig.toParams, SimplifierConfig.toParams]
    refine ofList_covers SimplifierConfig.distinct rfl ?_
    simp only [List.forall_mem_cons]
    refine ⟨suits_uint (by decide) (by decide) _, ?_⟩
    iterate 8 refine ⟨suits_bool (by decide) _, ?_⟩
    refine ⟨⟨by decide, fun _ => x.config.maxDegree.toNat_lt⟩, ?_⟩
    iterate 6 refine ⟨suits_bool (by decide) _, ?_⟩
    nofun
  | solveEqs x y =>
    rw [params, params, EquationConfig.toParams, EquationConfig.toParams]
    refine ofList_covers EquationConfig.distinct rfl ?_
    simp only [List.forall_mem_cons]
    exact ⟨suits_uint (by decide) (by decide) _, suits_bool (by decide) _, nofun⟩
  | splitClause a b =>
    rw [params, params]
    refine ofList_covers (List.nodup_singleton _) rfl ?_
    simp only [List.forall_mem_cons]
    exact ⟨suits_bool (by decide) _, nofun⟩
  | bitBlast x y =>
    rw [params, params, BlastConfig.toParams, BlastConfig.toParams]
    refine ofList_covers BlastConfig.distinct rfl ?_
    simp only [List.forall_mem_cons]
    iterate 2 refine ⟨suits_uint (by decide) (by decide) _, ?_⟩
    iterate 4 refine ⟨suits_bool (by decide) _, ?_⟩
    nofun
  | skip | fail | failIfUndecided | failIf | custom => nofun

/-- A set that covers the parameters of a part is accepted by all parts of its kind, and gives them
one configuration: that of the part, exactly if it includes its parameters. -/
theorem SameKind.exists_given (part : SameKind t t) (covers : p.Covers t.params) :
    ∃ w : Tactic, (∀ u, SameKind t u → (u.update p).1 = .ok () ∧ (u.update p).2.fresh = w) ∧
      (w = t.fresh ↔ p.Includes t.params) := by
  cases part with
  | simplify name x =>
    rw [params] at covers ⊢
    refine ⟨.simplify name { config := .given p }, ?_, ?_⟩
    · rintro _ ⟨_, _, y⟩
      have changed : (SimplifierConfig.update p).result y.config = .ok (.given p) := by
        rw [Update.result, SimplifierConfig.update_given covers]
      unfold Tactic.update updateSimplifier
      rw [changed]
      refine ⟨rfl, congrArg (Tactic.simplify name) ?_⟩
      split
      · next same => rw [Simplifier.fresh, same]
      · rfl
    · refine Iff.trans ?_ (SimplifierConfig.given_eq_iff covers)
      exact ⟨fun same => (Simplifier.mk.inj (Tactic.simplify.inj same).2).1, fun same => by
        rw [same, fresh, Simplifier.fresh]⟩
  | solveEqs x =>
    rw [params] at covers ⊢
    refine ⟨.solveEqs { config := .given p }, ?_, ?_⟩
    · rintro _ ⟨⟩
      unfold Tactic.update
      rw [EquationConfig.update_given covers]
      exact ⟨rfl, rfl⟩
    · refine Iff.trans ?_ (EquationConfig.given_eq_iff covers)
      exact ⟨fun same => (EquationSolver.mk.inj (Tactic.solveEqs.inj same)).1, fun same => by
        rw [same, fresh]⟩
  | splitClause a =>
    rw [params] at covers ⊢
    have covers := covers.each (List.nodup_singleton _)
    simp only [List.forall_mem_cons] at covers
    obtain ⟨largest, -⟩ := covers
    refine ⟨.splitClause (p.choice "split-largest-clause"), ?_, ?_⟩
    · rintro _ ⟨⟩
      unfold Tactic.update
      rw [getBool, largest.get?_choice (by decide)]
      exact ⟨rfl, rfl⟩
    · refine Iff.trans ?_ (Iff.symm (includes_ofList (List.nodup_singleton _)))
      rw [List.forall_mem_singleton, largest.get?_eq_bool_iff (by decide)]
      exact ⟨splitClause.inj, congrArg Tactic.splitClause⟩
  | bitBlast x =>
    rw [params] at covers ⊢
    refine ⟨.bitBlast { config := .given p }, ?_, ?_⟩
    · rintro _ ⟨⟩
      unfold Tactic.update
      rw [BlastConfig.update_given covers]
      exact ⟨rfl, rfl⟩
    · refine Iff.trans ?_ (BlastConfig.given_eq_iff covers)
      exact ⟨fun same => (Blaster.mk.inj (Tactic.bitBlast.inj same)).1, fun same => by
        rw [same, fresh]⟩
  | skip | fail | failIfUndecided | failIf | custom =>
    refine ⟨_, ?_, ⟨fun _ => nofun, fun _ => rfl⟩⟩
    rintro _ ⟨⟩
    unfold Tactic.update
    exact ⟨rfl, rfl⟩

end Tactic

end Stratagem
