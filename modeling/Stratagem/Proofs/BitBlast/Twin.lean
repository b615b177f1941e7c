import Stratagem.Proofs.Twin
import Stratagem.Tactic.BitBlast

/-!
# The statistics of a bit-blaster do not show

A bit-blaster counts over all runs what it replaces, encodes and keeps. It never looks at these
counts: two bit-blasters with the same configuration and the same working state do the same, to the
last term they build. A run starts with an empty working state, so only the configuration matters.
-/
namespace Stratagem.Blaster

open Store (Extends)
open Attempt

/-- Two bit-blasters of a given configuration differ only in what they have counted over all
runs. -/
def Alike (config : BlastConfig) (x y : Blaster) (_ : Store) : Prop :=
  x.config = config ∧ y.config = config ∧ x.work = y.work

/-- The runs of an attempt from two bit-blasters that differ only in their counts are twins. -/
def Blind {α : Type} (work : Attempt Blaster α) : Prop :=
  ∀ config x y s, Alike config x y s → work.Twins x y s (Alike config) fun _ _ => True

variable {α β : Type} {context : Context} {t f : TermId}

/-- A result alone. -/
theorem blind_pure (a : α) : Blind (pure a) := fun _ _ _ _ alike => twins_pure alike trivial

/-- A failure. -/
theorem blind_throw (e : Error) : Blind (throw e : Attempt Blaster α) :=
  fun _ _ _ _ alike => twins_throw alike

/-- An attempt and then another one on its result. -/
theorem Blind.bind {work : Attempt Blaster α} {next : α → Attempt Blaster β} (first : Blind work)
    (rest : ∀ a, Blind (next a)) : Blind (work >>= next) :=
  fun config x y s alike => twins_bind (first config x y s alike) fun a x y s _ alike _ => rest a config x y s alike

/-- Building terms. -/
theorem blind_build (work : Terms α) : Blind (Attempt.build work) :=
  fun _ _ _ _ alike => twins_build_any (fun _ _ alike => alike) alike

/-- Checking the circumstances. -/
theorem blind_check : Blind (Attempt.check context) :=
  fun _ _ _ _ alike => (twins_check alike).imp (fun _ _ _ _ => id) fun _ _ _ _ => trivial

/-- Looking at the store. -/
theorem blind_read_bind {next : Store → Attempt Blaster β} (rest : ∀ s, Blind (next s)) :
    Blind (readThe Store >>= next) := fun config x y s alike => twins_read_bind (rest s config x y s alike)

/-- Looking at something other than the counts. -/
theorem blind_get_bind {next : Blaster → Attempt Blaster β}
    (same : ∀ x y : Blaster, x.config = y.config → x.work = y.work → next x = next y)
    (rest : ∀ b, Blind (next b)) : Blind (get >>= next) :=
  fun config x y s alike => twins_get_bind (same x y (alike.1.trans alike.2.1.symm) alike.2.2) (rest x config x y s alike)

/-- Changing the working state and the counts. -/
theorem blind_modify {change : Blaster → Blaster}
    (config : ∀ b, (change b).config = b.config)
    (work : ∀ x y : Blaster, x.config = y.config → x.work = y.work →
      (change x).work = (change y).work) : Blind (modify change : Attempt Blaster PUnit) := by
  intro choices x y s ⟨left, right, state⟩
  refine twins_modify ⟨?_, ?_, work x y (left.trans right.symm) state⟩ trivial
  · rw [config, left]
  · rw [config, right]

/-- An attempt on every member of a list. -/
theorem blind_mapM {work : α → Attempt Blaster β} (each : ∀ a, Blind (work a)) (members : List α) :
    Blind (members.mapM work) := by
  intro config x y s alike
  refine (twins_mapM (fun _ _ _ _ => id) members alike fun a _ x y s _ alike =>
    each a config x y s alike).imp (fun _ _ _ _ => id) fun _ _ _ _ => trivial

/-- Judging terms. -/
theorem blind_supportsAll (args : List TermId) : Blind (supportsAll args) := by
  refine blind_read_bind fun s => ?_
  rintro _ ⟨choices, stats, state⟩ ⟨_, stats', _⟩ now ⟨rfl, right, work⟩
  obtain rfl : _ = choices := right
  obtain rfl : state = _ := work
  exact ⟨rfl, rfl, ⟨rfl, rfl, rfl⟩, fun _ _ => trivial⟩

/-- Keeping a formula or an application. -/
theorem blind_keep (f : TermId) : Blind (keep f) :=
  blind_read_bind fun s => blind_modify (fun _ => rfl) fun x y _ same => by
    dsimp only
    rw [same]

/-- Leaving an atom or a quantifier as it is. -/
theorem blind_keepAtom (f : TermId) : Blind (keepAtom f) :=
  (blind_modify (fun _ => rfl) fun _ _ _ same => same).bind fun _ =>
    (blind_keep f).bind fun _ => blind_pure f

/-- Checking the memory. -/
theorem blind_checkMemory : Blind checkMemory := by
  refine blind_get_bind (fun x y config _ => by rw [config]) fun b => ?_
  split
  · refine blind_read_bind fun s => ?_
    split
    · exact blind_throw _
    · exact blind_pure ()
  · exact blind_pure ()

/-- Counting a step. -/
theorem blind_step : Blind (step context) := by
  refine Blind.bind (blind_modify (fun _ => rfl) fun x y _ same => ?_) fun _ => ?_
  · dsimp only
    rw [same]
  refine blind_get_bind (fun x y config work => by rw [config, work]) fun b => ?_
  split
  · exact blind_throw _
  split
  · exact blind_checkMemory.bind fun _ => blind_check
  · exact blind_pure ()

/-- The bits of a constant. -/
theorem blind_constantBits (t : TermId) : Blind (constantBits t) := by
  refine blind_get_bind (fun x y _ work => by rw [work]) fun b => ?_
  dsimp only
  split
  · exact blind_pure _
  refine blind_read_bind fun s => ?_
  split
  · refine (blind_build _).bind fun bits => Blind.bind ?_ fun _ => blind_pure bits
    refine blind_modify (fun _ => rfl) fun x y _ same => ?_
    dsimp only
    rw [same]
  · exact blind_throw _

/-- The bits of an application. -/
theorem blind_applicationBits (t : TermId) : Blind (applicationBits t) := by
  refine blind_get_bind (fun x y _ work => by rw [work]) fun b => ?_
  split
  · exact blind_pure _
  refine blind_read_bind fun s => ?_
  split
  · refine (blind_build _).bind fun bits => Blind.bind ?_ fun _ => (blind_keep t).bind fun _ =>
      Blind.bind ?_ fun _ => blind_pure bits
    · exact blind_modify (fun _ => rfl) fun _ _ _ same => same
    · refine blind_modify (fun _ => rfl) fun x y _ same => ?_
      dsimp only
      rw [same]
  · exact blind_throw _

/-- Remembering bits. -/
theorem blind_rememberTerm (t : TermId) (bits : Bits) : Blind (rememberTerm t bits) :=
  blind_modify (fun _ => rfl) fun x y _ same => by
    dsimp only
    rw [same]

/-- Remembering an encoding. -/
theorem blind_rememberFormula (f encoding : TermId) : Blind (rememberFormula f encoding) :=
  blind_modify (fun _ => rfl) fun x y _ same => by
    dsimp only
    rw [same]

/-- Entering the scope of a quantifier. -/
theorem blind_enter (bound : Std.HashMap TermId Bits) : Blind (enter bound) :=
  blind_modify (fun _ => rfl) fun x y _ same => by
    dsimp only
    rw [same]

/-- Leaving the innermost scope. -/
theorem blind_leave : Blind leave := by
  rintro _ ⟨choices, stats, state⟩ ⟨_, stats', _⟩ s ⟨rfl, right, work⟩
  obtain rfl : _ = choices := right
  obtain rfl : state = _ := work
  exact ⟨rfl, rfl, ⟨rfl, rfl, rfl⟩, fun _ _ => trivial⟩

/-- A quantifier. -/
theorem blind_quantifier (f : TermId) (vars : List Binder) {body : Attempt Blaster TermId}
    (inside : Blind body) (make : List Binder → TermId → Terms TermId) :
    Blind (quantifier f vars body make) := by
  refine blind_get_bind (fun x y config _ => by rw [config]) fun b => ?_
  split
  · refine (blind_build _).bind fun found => (blind_enter _).bind fun _ => inside.bind fun encoding =>
      blind_leave.bind fun escaped => ?_
    split
    · exact (blind_keep f).bind fun _ => blind_pure f
    · exact blind_build _
  · exact blind_keepAtom f

section Encodings

variable {depth : ℕ}

/-- The bits of a term one level deeper. -/
theorem blind_bits (terms : ∀ t, Blind (bits context depth t))
    (formulas : ∀ f, Blind (formula context depth f)) (t : TermId) :
    Blind (bits context (depth + 1) t) := by
  have remembered : ∀ out, Blind (do rememberTerm t out; pure out) :=
    fun out => (blind_rememberTerm t out).bind fun _ => blind_pure out
  have one : ∀ (a : TermId) (circuit : Bits → Terms Bits), Blind (do
      let a ← bits context depth a
      let out ← Attempt.build (circuit a)
      rememberTerm t out
      pure out) :=
    fun a circuit => (terms a).bind fun _ => (blind_build _).bind remembered
  have two : ∀ (a c : TermId) (circuit : Bits → Bits → Terms Bits), Blind ((do
      let a ← bits context depth a
      let c ← bits context depth c
      Attempt.build (circuit a c)) >>= fun out => do
      rememberTerm t out
      pure out) :=
    fun a c circuit => Blind.bind ((terms a).bind fun _ => (terms c).bind fun _ => blind_build _)
      remembered
  rw [bits]
  refine blind_get_bind (fun x y _ work => by rw [work]) fun b => ?_
  split
  · exact blind_pure _
  refine blind_step.bind fun _ => blind_read_bind fun s => ?_
  dsimp only
  split
  case h_1 => exact (blind_pure _).bind remembered
  case h_2 => exact (blind_constantBits t).bind remembered
  case h_3 | h_7 => exact one _ _
  case h_4 | h_5 | h_6 | h_8 | h_9 | h_10 | h_11 => exact two _ _ _
  case h_12 =>
    refine (terms _).bind fun out => ?_
    split
    · exact (blind_pure _).bind remembered
    · exact (blind_throw _).bind remembered
  case h_13 => exact (formulas _).bind fun condition => two _ _ _
  case h_14 => exact (blind_applicationBits t).bind remembered
  case h_15 => exact (blind_throw _).bind remembered

/-- The encoding of a formula one level deeper. -/
theorem blind_formula (terms : ∀ t, Blind (bits context depth t))
    (formulas : ∀ f, Blind (formula context depth f)) (f : TermId) :
    Blind (formula context (depth + 1) f) := by
  have remembered : ∀ encoding, Blind (do rememberFormula f encoding; pure encoding) :=
    fun encoding => (blind_rememberFormula f encoding).bind fun _ => blind_pure encoding
  rw [formula]
  refine blind_get_bind (fun x y _ work => by rw [work]) fun b => ?_
  split
  · exact blind_pure _
  refine blind_step.bind fun _ => blind_read_bind fun s => ?_
  dsimp only
  split
  · exact (blind_mapM formulas _).bind fun _ => (blind_build _).bind remembered
  split
  · refine (blind_supportsAll _).bind fun supported => ?_
    split
    · refine (blind_mapM terms _).bind fun vectors => Blind.bind ?_ fun _ =>
        (blind_build _).bind remembered
      exact blind_modify (fun _ => rfl) fun _ _ _ same => same
    · exact (blind_keepAtom f).bind remembered
  · exact (blind_quantifier f _ (formulas _) _).bind remembered
  · exact (blind_quantifier f _ (formulas _) _).bind remembered
  · exact (blind_keep f).bind fun _ => (blind_pure f).bind remembered

end Encodings

/-- Encoding terms and formulas. -/
theorem blind_encode (context : Context) (depth : ℕ) :
    (∀ t, Blind (bits context depth t)) ∧ ∀ f, Blind (formula context depth f) := by
  induction depth with
  | zero =>
    constructor
    · intro t
      rw [bits]
      exact blind_throw _
    · intro f
      rw [formula]
      exact blind_throw _
  | succ depth both => exact ⟨blind_bits both.1 both.2, blind_formula both.1 both.2⟩

/-- Encoding the formula of a slot. -/
theorem blind_visit (context : Context) (slot : ℕ) (e : Entry) (g : Goal) :
    Blind (visit context slot e g) := by
  refine blind_check.bind fun _ => ((blind_encode context _).2 _).bind fun encoding => ?_
  split
  · exact blind_pure g
  · exact (blind_build _).bind fun _ => blind_build _

/-- Two bit-blasters of one configuration encode a goal in the same way. -/
theorem run_twins (context : Context) (g : Goal) {config : BlastConfig} {x y : Blaster}
    (left : x.config = config) (right : y.config = config) (s : Store) :
    (run context g).Twins x y s (fun x y _ => x.config = config ∧ y.config = config)
      fun _ _ => True := by
  refine twins_get_bind (by rw [left, right]) ?_
  have encoded : Blind (do
      let g ← Goal.visitFrom (visit context) g.size 0 g
      let g ← Attempt.build g.elimRedundancies
      let work := (← get).work
      let g ← if g.inconsistent then pure g else Attempt.build (assertLinks g (linked work))
      modify fun b => cleanup { b with stats := { b.stats with steps := work.steps } }
      return { goals := [g.deeper], models := if g.models then converter work else .identity } :
      Attempt Blaster TacticResult) := by
    refine Blind.bind (fun config x y s alike => ?_) fun g => (blind_build _).bind fun g => ?_
    · exact Goal.visitFrom_twins (fun slot e g => blind_visit context slot e g config) _ _ _ alike
    refine blind_get_bind (fun x y _ work => by rw [work]) fun b => ?_
    have counted : Blind (modify fun b' : Blaster =>
        cleanup { b' with stats := { b'.stats with steps := b.work.steps } }) :=
      blind_modify (fun _ => rfl) fun _ _ _ _ => rfl
    dsimp only
    split
    · exact (blind_pure g).bind fun g => counted.bind fun _ => blind_pure _
    · exact (blind_build _).bind fun g => counted.bind fun _ => blind_pure _
  split
  · exact twins_throw ⟨left, right⟩
  · have whole := encoded config x.cleanup y.cleanup s ⟨left, right, rfl⟩
    refine twins_modify_bind (whole.imp (fun _ _ _ _ alike => ?_) fun _ _ _ => id)
    exact ⟨alike.1, alike.2.1⟩

end Stratagem.Blaster
