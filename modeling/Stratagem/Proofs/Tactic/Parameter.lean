import Mathlib.Data.List.Basic
import Stratagem.Proofs.Parameter
import Stratagem.Tactic.Basic

/-!
# Refused parameters

The parameters of a tactic are set in one part after the other, and in a part one field after the
other. A value of the wrong kind, or out of range, ends this, and what was set before stays set: the
parts before the one that refuses the value have their new parameters, and those after it have their
old ones. A simplifier and a case split change as a whole or not at all; an elimination of constants
and a bit-blaster keep the fields that were read before the refused one. Since a parameter takes the
same values in every part, a single parameter is set in all parts that know it or in none.
-/
namespace Stratagem

namespace Params

/-- The parameters that are numbers. -/
def numbers : List String := ["max-steps", "max-memory", "max-degree", "solve-eqs-max-occs"]

/-- A value is one that the parameter of a name takes: a number if it is a limit, with at most 32
bits if it is the largest degree, and a truth value if it is a choice. -/
def Suits (name : String) : ParamValue → Prop
  | .uint n => name ∈ numbers ∧ (name = "max-degree" → n < 4294967296)
  | .bool _ => name ∉ numbers
  | _ => False

/-- A set of parameters with an unsuitable value. -/
def SomeUnsuited (p : Params) : Prop := ∃ name v, (name, v) ∈ p.entries ∧ ¬Suits name v

/-- A set of parameters without a suitable value. -/
def NoneSuits (p : Params) : Prop := ∀ name v, (name, v) ∈ p.entries → ¬Suits name v

variable {p : Params} {name : String} {v : ParamValue} {e : Error}

/-- If one of at most one value is unsuitable, none is suitable. -/
theorem SomeUnsuited.noneSuits (some : p.SomeUnsuited) (single : p.entries.length ≤ 1) :
    p.NoneSuits := by
  obtain ⟨name, v, member, unsuited⟩ := some
  intro other w inside
  obtain ⟨entry, same⟩ : ∃ entry, p.entries = [entry] :=
    List.length_eq_one_iff.mp (Nat.le_antisymm single (List.length_pos_of_mem member))
  rw [same, List.mem_singleton] at member inside
  obtain ⟨rfl, rfl⟩ := Prod.mk.inj (inside.trans member.symm)
  exact unsuited

/-- A truth value is refused for the value that is set. -/
theorem someUnsuited_of_getBool {default : Bool} (choice : normalize name ∉ numbers)
    (refused : p.getBool name default = .error e) : p.SomeUnsuited := by
  unfold getBool at refused
  split at refused
  · cases refused
  · cases refused
  · next v other found =>
    refine ⟨_, v, mem_of_get? found, fun suits => ?_⟩
    cases v with
    | bool b => exact other b rfl
    | uint n => exact choice suits.1
    | double | symbol => exact suits

/-- A truth value that is read is the default or was set. -/
theorem getBool_eq_ok {default b : Bool} (read : p.getBool name default = .ok b) :
    b = default ∨ (normalize name, .bool b) ∈ p.entries := by
  unfold getBool at read
  split at read
  · exact .inl (Except.ok.inj read).symm
  · next found =>
    obtain rfl := Except.ok.inj read
    exact .inr (mem_of_get? found)
  · cases read

/-- A number is refused for the value that is set. -/
theorem someUnsuited_of_getUInt {default : ℕ} (number : normalize name ∈ numbers)
    (refused : p.getUInt name default = .error e) : p.SomeUnsuited := by
  unfold getUInt at refused
  split at refused
  · cases refused
  · cases refused
  · next v other found =>
    refine ⟨_, v, mem_of_get? found, fun suits => ?_⟩
    cases v with
    | bool b => exact suits number
    | uint n => exact other n rfl
    | double | symbol => exact suits

/-- A number that is read is the default or was set. -/
theorem getUInt_eq_ok {default n : ℕ} (read : p.getUInt name default = .ok n) :
    n = default ∨ (normalize name, .uint n) ∈ p.entries := by
  unfold getUInt at read
  split at read
  · exact .inl (Except.ok.inj read).symm
  · next found =>
    obtain rfl := Except.ok.inj read
    exact .inr (mem_of_get? found)
  · cases read

/-- What becomes of a configuration or a tactic that refuses unsuitable values only, and that is
left as it is if no value is suitable, whether a value is refused or not. -/
structure Careful {α : Type} (p : Params) (a : α) (result : Except Error Unit × α) : Prop where
  /-- Only unsuitable values are refused. -/
  refuses : ∀ e, result.1 = .error e → p.SomeUnsuited
  /-- Only suitable values are set. -/
  keeps : p.NoneSuits → result.2 = a

end Params

namespace Update

open Params

variable {α σ : Type} {p : Params} {name : String} {u w : Update σ Unit} {c : σ}

/-- A failure for an unsuitable value. -/
theorem careful_throw {e : Error} (unsuited : p.SomeUnsuited) :
    p.Careful c (Update.apply (throw e) c) := ⟨fun _ _ => unsuited, fun _ => rfl⟩

/-- A change of a field to what it is or to a suitable value. -/
theorem careful_modify {change : σ → σ} (same : p.NoneSuits → change c = c) :
    p.Careful c (Update.apply (modify change) c) := ⟨nofun, same⟩

/-- One change after the other. -/
theorem careful_bind (first : p.Careful c (u.apply c)) (second : ∀ c, p.Careful c (w.apply c)) :
    p.Careful c (Update.apply (do u; w) c) := by
  have run : Update.apply (do u; w) c =
      ExceptT.bindCont (m := StateM σ) (fun _ => w) (u.apply c).1 (u.apply c).2 := rfl
  cases outcome : (u.apply c).1 with
  | error e =>
    rw [outcome] at run
    exact ⟨fun _ _ => first.refuses e outcome, fun none =>
      (congrArg Prod.snd run).trans (first.keeps none)⟩
  | ok _ =>
    rw [outcome] at run
    have run : Update.apply (do u; w) c = w.apply (u.apply c).2 := run
    exact ⟨fun e failed => (second _).refuses e (run.symm ▸ failed), fun none =>
      (congrArg Prod.snd run).trans (((second _).keeps none).trans (first.keeps none))⟩

/-- Reading a value, which may be refused, and then a change. -/
theorem careful_read {read : σ → Except Error α} {next : α → Update σ Unit}
    (refuses : ∀ e, read c = .error e → p.SomeUnsuited)
    (each : ∀ a, read c = .ok a → p.Careful c ((next a).apply c)) :
    p.Careful c (Update.apply (do next (← read (← get))) c) := by
  have run : Update.apply (do next (← read (← get))) c =
      ExceptT.bindCont (m := StateM σ) next (read c) c := rfl
  cases found : read c with
  | error e =>
    rw [found] at run
    exact ⟨fun _ _ => refuses e found, fun _ => congrArg Prod.snd run⟩
  | ok a =>
    rw [found] at run
    have run : Update.apply (do next (← read (← get))) c = (next a).apply c := run
    exact ⟨fun e failed => (each a found).refuses e (run.symm ▸ failed),
      fun none => (congrArg Prod.snd run).trans ((each a found).keeps none)⟩

/-- Reading a truth value into a field. -/
theorem careful_bool {field : σ → Bool} {put : σ → Bool → σ}
    (choice : normalize name ∉ numbers) (same : ∀ c, put c (field c) = c) (c : σ) :
    p.Careful c ((Update.bool p name field put).apply c) := by
  refine careful_read (fun e => someUnsuited_of_getBool choice) fun b read => ?_
  refine careful_modify fun none => ?_
  obtain rfl | member := getBool_eq_ok read
  · exact same c
  · exact absurd choice (none _ _ member)

/-- Reading a truth value into a field, and then another change. -/
theorem careful_bool_bind {field : σ → Bool} {put : σ → Bool → σ}
    (choice : normalize name ∉ numbers) (same : ∀ c, put c (field c) = c)
    (later : ∀ c, p.Careful c (w.apply c)) (c : σ) :
    p.Careful c (Update.apply (do Update.bool p name field put; w) c) :=
  careful_bind (careful_bool choice same c) later

/-- Reading an unsigned number into a field. -/
theorem careful_uint {field : σ → ℕ} {put : σ → ℕ → σ} (number : normalize name ∈ numbers)
    (unbounded : normalize name ≠ "max-degree") (same : ∀ c, put c (field c) = c) (c : σ) :
    p.Careful c ((Update.uint p name field put).apply c) := by
  refine careful_read (fun e => someUnsuited_of_getUInt number) fun n read => ?_
  refine careful_modify fun none => ?_
  obtain rfl | member := getUInt_eq_ok read
  · exact same c
  · exact absurd ⟨number, fun bounded => absurd bounded unbounded⟩ (none _ _ member)

/-- The outcome of a change as a whole. -/
theorem result_careful (careful : p.Careful c (u.apply c)) :
    (∀ e, u.result c = .error e → p.SomeUnsuited) ∧
      ∀ c', u.result c = .ok c' → p.NoneSuits → c' = c := by
  unfold result
  split
  · next c' found =>
    rw [found] at careful
    refine ⟨nofun, fun d same none => ?_⟩
    rw [← Except.ok.inj same]
    exact careful.keeps none
  · next e c' found =>
    rw [found] at careful
    exact ⟨fun _ _ => careful.refuses e rfl, nofun⟩

end Update

/-- Reading the largest degree. -/
theorem SimplifierConfig.updateMaxDegree_careful (p : Params) (c : SimplifierConfig) :
    p.Careful c ((updateMaxDegree p).apply c) := by
  have number : Params.normalize "max-degree" ∈ Params.numbers := by decide
  refine Update.careful_read (fun e => Params.someUnsuited_of_getUInt number) fun n read => ?_
  dsimp only
  split
  · next large =>
    refine Update.careful_throw ?_
    obtain rfl | member := Params.getUInt_eq_ok read
    · exact absurd c.maxDegree.toNat_lt (Nat.not_lt.mpr large)
    · exact ⟨_, _, member, fun suits => Nat.not_lt.mpr large (suits.2 (by decide))⟩
  · next small =>
    refine Update.careful_modify fun none => ?_
    obtain rfl | member := Params.getUInt_eq_ok read
    · simp
    · exact absurd ⟨number, fun _ => Nat.lt_of_not_le small⟩ (none _ _ member)

/-- The configuration of a simplifier is changed with care. -/
theorem SimplifierConfig.update_careful (p : Params) (c : SimplifierConfig) :
    p.Careful c ((update p).apply c) := by
  unfold update
  refine Update.careful_bind (Update.careful_uint (by decide) (by decide) (fun _ => rfl) c) ?_
  iterate 8 refine Update.careful_bool_bind (by decide) (fun _ => rfl) ?_
  refine fun c => Update.careful_bind (updateMaxDegree_careful p c) ?_
  iterate 5 refine Update.careful_bool_bind (by decide) (fun _ => rfl) ?_
  exact Update.careful_bool (by decide) fun _ => rfl

/-- The configuration of an elimination of constants is changed with care. -/
theorem EquationConfig.update_careful (p : Params) (c : EquationConfig) :
    p.Careful c ((update p).apply c) :=
  Update.careful_bind (Update.careful_uint (by decide) (by decide) (fun _ => rfl) c)
    (Update.careful_bool (by decide) fun _ => rfl)

/-- The configuration of a bit-blaster is changed with care. -/
theorem BlastConfig.update_careful (p : Params) (c : BlastConfig) :
    p.Careful c ((update p).apply c) := by
  unfold update
  refine Update.careful_bind (Update.careful_uint (by decide) (by decide) (fun _ => rfl) c)
    fun c => ?_
  refine Update.careful_bind (Update.careful_uint (by decide) (by decide) (fun _ => rfl) c) ?_
  iterate 3 refine Update.careful_bool_bind (by decide) (fun _ => rfl) ?_
  exact Update.careful_bool (by decide) fun _ => rfl

namespace Tactic

open Params

mutual

/-- The tactics that a tactic is composed of, in the order in which their parameters are set. -/
def parts : Tactic → List Tactic
  | andThen first second => first.parts ++ second.parts
  | orElse alternatives => partsOfAll alternatives
  | cond _ yes no => yes.parts ++ no.parts
  | iterate inner _ | tryFor inner _ | usingParams inner _ => inner.parts
  | t => [t]

/-- The parts of the tactics in order. -/
def partsOfAll : List Tactic → List Tactic
  | [] => []
  | t :: rest => t.parts ++ partsOfAll rest

end

/-- Whether a tactic sets its parameters one by one, so that those before a refused one stay set. -/
def isFieldwise : Tactic → Bool
  | solveEqs _ | bitBlast _ => true
  | _ => false

/-- The parts before and after a change of parameters: they are changed in order, up to the first
one that refuses a value. That one stays as it is, unless it sets its parameters one by one. -/
inductive Changes (p : Params) : List Tactic → Except Error Unit → List Tactic → Prop
  /-- There are no parts. -/
  | none : Changes p [] (.ok ()) []
  /-- A part accepts the parameters. -/
  | accepted {u u' : Tactic} {outcome : Except Error Unit} {later later' : List Tactic}
      (changed : u.update p = (.ok (), u')) (rest : Changes p later outcome later') :
      Changes p (u :: later) outcome (u' :: later')
  /-- A part refuses a parameter. -/
  | refused {u u' : Tactic} {e : Error} (changed : u.update p = (.error e, u'))
      (whole : u.isFieldwise = true ∨ u' = u) (later : List Tactic) :
      Changes p (u :: later) (.error e) (u' :: later)

variable {p : Params} {t u u' : Tactic} {before later before' later' : List Tactic} {e : Error}
  {outcome : Except Error Unit}

namespace Changes

/-- A change of a single part. -/
theorem single (changed : u.update p = (outcome, u'))
    (whole : ∀ e, outcome = .error e → u.isFieldwise = true ∨ u' = u) :
    Changes p [u] outcome [u'] := by
  cases outcome with
  | ok => exact .accepted changed .none
  | error e => exact .refused changed (whole e rfl) []

/-- Parts that all accept the parameters, and others after them. -/
theorem append (first : Changes p before (.ok ()) before')
    (second : Changes p later outcome later') :
    Changes p (before ++ later) outcome (before' ++ later') := by
  generalize accepted : Except.ok () = done at first
  induction first with
  | none => exact second
  | accepted changed _ tail => exact .accepted changed (tail accepted)
  | refused => cases accepted

/-- Parts one of which refuses a parameter, and others after them. -/
theorem append_refused (first : Changes p before (.error e) before') (later : List Tactic) :
    Changes p (before ++ later) (.error e) (before' ++ later) := by
  generalize refused : Except.error e = done at first
  induction first with
  | none => cases refused
  | accepted changed _ tail => exact .accepted changed (tail refused)
  | refused changed whole => exact .refused changed whole _

/-- No part is lost. -/
theorem length_eq (changes : Changes p before outcome before') :
    before'.length = before.length := by
  induction changes with
  | none => rfl
  | accepted _ _ tail => exact congrArg (· + 1) tail
  | refused => rfl

/-- If a value is refused, there is a first part that refuses one. -/
theorem exists_refused (changes : Changes p before (.error e) before') :
    ∃ first part rest, before = first ++ part :: rest ∧
      (∀ u ∈ first, (u.update p).1 = .ok ()) ∧ (part.update p).1 = .error e ∧
      (part.isFieldwise = true ∨ (part.update p).2 = part) ∧
      before' = first.map (fun u => (u.update p).2) ++ (part.update p).2 :: rest := by
  generalize refused : Except.error e = done at changes
  induction changes with
  | none => cases refused
  | @accepted u u' later _ later' changed _ tail =>
    obtain ⟨first, part, rest, rfl, each, failed, whole, rfl⟩ := tail refused
    refine ⟨u :: first, part, rest, rfl, List.forall_mem_cons.mpr ⟨?_, each⟩, failed, whole, ?_⟩
    · rw [changed]
    · rw [List.map_cons, changed, List.cons_append]
  | @refused u u' _ changed whole later =>
    obtain rfl := Except.error.inj refused
    refine ⟨[], u, later, rfl, nofun, ?_⟩
    rw [changed]
    exact ⟨rfl, whole, rfl⟩

end Changes

/-- A simplifier that refuses a parameter stays as it is. -/
theorem updateSimplifier_of_refused {simplifier : Simplifier}
    (refused : (updateSimplifier p simplifier).1 = .error e) :
    (updateSimplifier p simplifier).2 = simplifier := by
  unfold updateSimplifier at refused ⊢
  split at refused
  · cases refused
  · rfl

mutual

/-- A change of a tactic changes its parts. -/
theorem changes_update (p : Params) :
    ∀ t : Tactic, Changes p t.parts (t.update p).1 (t.update p).2.parts
  | andThen first second => by
    have early := changes_update p first
    unfold update
    split
    · next changed =>
      rw [changed] at early
      exact early.append (changes_update p second)
    · next changed =>
      rw [changed] at early
      exact early.append_refused _
  | orElse alternatives => by
    unfold update
    exact changes_updateAll p alternatives
  | cond _ yes no => by
    have early := changes_update p yes
    unfold update
    split
    · next changed =>
      rw [changed] at early
      exact early.append (changes_update p no)
    · next changed =>
      rw [changed] at early
      exact early.append_refused _
  | iterate inner _ | tryFor inner _ | usingParams inner _ => by
    unfold update
    exact changes_update p inner
  | simplify name simplifier => by
    refine .single (by unfold update; rfl) fun e failed => .inr ?_
    unfold update at failed ⊢
    exact congrArg (simplify name) (updateSimplifier_of_refused failed)
  | solveEqs .. | bitBlast .. => by
    exact .single (by unfold update; rfl) fun _ _ => .inl rfl
  | splitClause largest => by
    unfold update
    split
    · next read => exact .single (by unfold update; rw [read]) nofun
    · next read => exact .single (by unfold update; rw [read]) fun _ _ => .inr rfl
  | skip | fail .. | failIfUndecided | failIf .. | custom .. => by
    exact .single (by unfold update; rfl) (by unfold update; nofun)

/-- A change of tactics changes their parts. -/
theorem changes_updateAll (p : Params) : ∀ alternatives : List Tactic,
    Changes p (partsOfAll alternatives) (updateAll p alternatives).1
      (partsOfAll (updateAll p alternatives).2)
  | [] => by
    unfold updateAll
    exact .none
  | t :: rest => by
    have early := changes_update p t
    unfold updateAll
    split
    · next changed =>
      rw [changed] at early
      exact early.append (changes_updateAll p rest)
    · next changed =>
      rw [changed] at early
      exact early.append_refused _

end

mutual

/-- A tactic whose parts a change leaves as they are is left as it is. -/
theorem eq_of_parts_eq (p : Params) :
    ∀ t : Tactic, (t.update p).2.parts = t.parts → (t.update p).2 = t
  | andThen first second => by
    have early := eq_of_parts_eq p first
    have sizes := (changes_update p first).length_eq
    unfold update
    split
    · next changed =>
      rw [changed] at early sizes
      intro same
      obtain ⟨left, right⟩ := List.append_inj same sizes
      exact congrArg₂ andThen (early left) (eq_of_parts_eq p second right)
    · next changed =>
      rw [changed] at early
      intro same
      exact congrArg (andThen · second) (early (List.append_cancel_right same))
  | orElse alternatives => by
    unfold update
    exact fun same => congrArg orElse (eq_of_partsOfAll_eq p alternatives same)
  | cond probe yes no => by
    have early := eq_of_parts_eq p yes
    have sizes := (changes_update p yes).length_eq
    unfold update
    split
    · next changed =>
      rw [changed] at early sizes
      intro same
      obtain ⟨left, right⟩ := List.append_inj same sizes
      exact congrArg₂ (cond probe) (early left) (eq_of_parts_eq p no right)
    · next changed =>
      rw [changed] at early
      intro same
      exact congrArg (cond probe · no) (early (List.append_cancel_right same))
  | iterate inner limit => by
    unfold update
    exact fun same => congrArg (iterate · limit) (eq_of_parts_eq p inner same)
  | tryFor inner budget => by
    unfold update
    exact fun same => congrArg (tryFor · budget) (eq_of_parts_eq p inner same)
  | usingParams inner params => by
    unfold update
    exact fun same => congrArg (usingParams · params) (eq_of_parts_eq p inner same)
  | simplify .. | solveEqs .. | bitBlast .. | skip | fail .. | failIfUndecided | failIf .. |
    custom .. => by
    unfold update
    exact fun same => (List.cons.inj same).1
  | splitClause largest => by
    unfold update
    split <;> exact fun same => (List.cons.inj same).1

/-- Tactics whose parts a change leaves as they are are left as they are. -/
theorem eq_of_partsOfAll_eq (p : Params) : ∀ alternatives : List Tactic,
    partsOfAll (updateAll p alternatives).2 = partsOfAll alternatives →
      (updateAll p alternatives).2 = alternatives
  | [] => by
    unfold updateAll
    exact fun _ => rfl
  | t :: rest => by
    have early := eq_of_parts_eq p t
    have sizes := (changes_update p t).length_eq
    unfold updateAll
    split
    · next changed =>
      rw [changed] at early sizes
      intro same
      obtain ⟨left, right⟩ := List.append_inj same sizes
      exact congrArg₂ List.cons (early left) (eq_of_partsOfAll_eq p rest right)
    · next changed =>
      rw [changed] at early
      intro same
      exact congrArg (List.cons · rest) (early (List.append_cancel_right same))

end

/-- A simplifier refuses unsuitable values only, and as a whole. -/
theorem updateSimplifier_careful (p : Params) (simplifier : Simplifier) :
    p.Careful simplifier (updateSimplifier p simplifier) := by
  obtain ⟨refuses, keeps⟩ :=
    Update.result_careful (SimplifierConfig.update_careful p simplifier.config)
  unfold updateSimplifier
  split
  · next config found =>
    exact ⟨nofun, fun none => if_pos (keeps config found none)⟩
  · next e found => exact ⟨fun _ _ => refuses e found, fun _ => rfl⟩

/-- A case split refuses unsuitable values only. -/
theorem update_splitClause_careful (p : Params) (largest : Bool) :
    p.Careful (splitClause largest) ((splitClause largest).update p) := by
  have choice : normalize "split-largest-clause" ∉ numbers := by decide
  unfold update
  split
  · next value read =>
    refine ⟨nofun, fun none => ?_⟩
    obtain rfl | member := getBool_eq_ok read
    · rfl
    · exact absurd choice (none _ _ member)
  · next e read => exact ⟨fun _ _ => someUnsuited_of_getBool choice read, fun _ => rfl⟩

mutual

/-- A tactic refuses unsuitable values only, and is left as it is if no value is suitable. -/
theorem update_careful (p : Params) : ∀ t : Tactic, p.Careful t (t.update p)
  | andThen first second => by
    have early := update_careful p first
    have late := update_careful p second
    unfold update
    split
    · next changed =>
      rw [changed] at early
      exact ⟨late.refuses, fun none => congrArg₂ andThen (early.keeps none) (late.keeps none)⟩
    · next e _ changed =>
      rw [changed] at early
      exact ⟨fun _ _ => early.refuses e rfl,
        fun none => congrArg (andThen · second) (early.keeps none)⟩
  | orElse alternatives => by
    have all := updateAll_careful p alternatives
    unfold update
    exact ⟨all.refuses, fun none => congrArg orElse (all.keeps none)⟩
  | cond probe yes no => by
    have early := update_careful p yes
    have late := update_careful p no
    unfold update
    split
    · next changed =>
      rw [changed] at early
      exact ⟨late.refuses, fun none => congrArg₂ (cond probe) (early.keeps none) (late.keeps none)⟩
    · next e _ changed =>
      rw [changed] at early
      exact ⟨fun _ _ => early.refuses e rfl,
        fun none => congrArg (cond probe · no) (early.keeps none)⟩
  | iterate inner limit => by
    have inside := update_careful p inner
    unfold update
    exact ⟨inside.refuses, fun none => congrArg (iterate · limit) (inside.keeps none)⟩
  | tryFor inner budget => by
    have inside := update_careful p inner
    unfold update
    exact ⟨inside.refuses, fun none => congrArg (tryFor · budget) (inside.keeps none)⟩
  | usingParams inner params => by
    have inside := update_careful p inner
    unfold update
    exact ⟨inside.refuses, fun none => congrArg (usingParams · params) (inside.keeps none)⟩
  | simplify name simplifier => by
    have changed := updateSimplifier_careful p simplifier
    unfold update
    exact ⟨changed.refuses, fun none => congrArg (simplify name) (changed.keeps none)⟩
  | solveEqs solver => by
    have changed := EquationConfig.update_careful p solver.config
    unfold update
    exact ⟨changed.refuses,
      fun none => congrArg (fun config => solveEqs { solver with config }) (changed.keeps none)⟩
  | bitBlast blaster => by
    have changed := BlastConfig.update_careful p blaster.config
    unfold update
    exact ⟨changed.refuses,
      fun none => congrArg (fun config => bitBlast { blaster with config }) (changed.keeps none)⟩
  | splitClause largest => update_splitClause_careful p largest
  | skip | fail .. | failIfUndecided | failIf .. | custom .. => by
    unfold update
    exact ⟨nofun, fun _ => rfl⟩

/-- Tactics refuse unsuitable values only, and are left as they are if no value is suitable. -/
theorem updateAll_careful (p : Params) : ∀ alternatives : List Tactic,
    p.Careful alternatives (updateAll p alternatives)
  | [] => by
    unfold updateAll
    exact ⟨nofun, fun _ => rfl⟩
  | t :: rest => by
    have early := update_careful p t
    have late := updateAll_careful p rest
    unfold updateAll
    split
    · next changed =>
      rw [changed] at early
      exact ⟨late.refuses, fun none => congrArg₂ List.cons (early.keeps none) (late.keeps none)⟩
    · next e _ changed =>
      rw [changed] at early
      exact ⟨fun _ _ => early.refuses e rfl,
        fun none => congrArg (List.cons · rest) (early.keeps none)⟩

end

/-- A refused change of parameters stops at the first part that refuses a value: the parts before it
have their new parameters, the parts after it have their old ones, and the part itself is as it was,
unless it sets its parameters one by one. So the tactic is as it was exactly when the parts up to
that one are, and always when a single parameter was to be set. -/
theorem update_refused {t' : Tactic} (refused : t.update p = (.error e, t')) :
    (∃ first part rest, t.parts = first ++ part :: rest ∧
      (∀ u ∈ first, (u.update p).1 = .ok ()) ∧ (part.update p).1 = .error e ∧
      (part.isFieldwise = true ∨ (part.update p).2 = part) ∧
      t'.parts = first.map (fun u => (u.update p).2) ++ (part.update p).2 :: rest ∧
      (t' = t ↔ (∀ u ∈ first, (u.update p).2 = u) ∧ (part.update p).2 = part)) ∧
    (p.entries.length ≤ 1 → t' = t) := by
  have changes := changes_update p t
  have careful := update_careful p t
  have restored := eq_of_parts_eq p t
  rw [refused] at changes careful restored
  refine ⟨?_, fun single => careful.keeps ((careful.refuses e rfl).noneSuits single)⟩
  obtain ⟨first, part, rest, whole, accepted, failed, kept, changed⟩ := changes.exists_refused
  refine ⟨first, part, rest, whole, accepted, failed, kept, changed, ?_, ?_⟩
  · rintro rfl
    rw [whole] at changed
    obtain ⟨same, same'⟩ := List.append_inj changed (List.length_map _).symm
    rw [← List.map_inj_left, ← same, List.map_id']
    exact ⟨rfl, (List.cons.inj same').1.symm⟩
  · rintro ⟨each, same⟩
    refine restored (changed.trans ?_)
    rw [List.map_congr_left each, List.map_id', same, whole]

/-- A limit of the elimination of constants stays set when the simplifier after it refuses a largest
degree. -/
theorem update_refused_case :
    let t := andThen (solveEqs {}) (simplifyWith {})
    let t' := andThen (solveEqs { config := { maxOccs := 7 } }) (simplifyWith {})
    let p := Params.ofList [("solve-eqs-max-occs", .uint 7), ("max-degree", .uint 4294967296)]
    let e := Error.invalidParameter "max-degree" "value does not fit in 32 bits"
    t.update p = (.error e, t') ∧ t' ≠ t ∧ ∃ first part rest, t.parts = first ++ part :: rest ∧
      (∀ u ∈ first, (u.update p).1 = .ok ()) ∧ (part.update p).1 = .error e ∧
      ¬((∀ u ∈ first, (u.update p).2 = u) ∧ (part.update p).2 = part) := by
  intro t t' p e
  have refused : t.update p = (.error e, t') := by rfl
  have different : t' ≠ t := by
    intro same
    have limits : 7 = 18446744073709551615 :=
      congrArg EquationConfig.maxOccs (congrArg EquationSolver.config
        (solveEqs.inj (andThen.inj same).1))
    exact absurd limits (by decide)
  obtain ⟨first, part, rest, whole, accepted, failed, -, -, restored⟩ := (update_refused refused).1
  exact ⟨refused, different, first, part, rest, whole, accepted, failed,
    fun kept => different (restored.mpr kept)⟩

end Tactic

end Stratagem
