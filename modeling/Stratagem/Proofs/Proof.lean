import Stratagem.Proof
import Stratagem.Proofs.Reasoning
import Stratagem.Proofs.Term.Traversal

/-!
# Valid proofs

A proof is valid if every step concludes what its rule allows, the asserted formulas are given, and
a hypothesis is assumed or stands below the lemma that concludes its negation. A valid proof stays
valid when the store grows, and with more assumptions.
-/
namespace Stratagem

open Store (Extends)

/-- What a rule allows to conclude, from the conclusions of the premises. -/
def Store.Allows (s : Store) : ProofRule → List TermId → TermId → Prop
  | .asserted, premises, _ | .hypothesis, premises, _ => premises = []
  | .rewriting, premises, e => premises = [] ∧ ∃ f g, s.view e = (.eq, [f, g])
  | .modusPonens, premises, g => ∃ f e, premises = [f, e] ∧ s.view e = (.eq, [f, g])
  | .andElim, premises, g => ∃ f args, premises = [f] ∧ s.view f = (.and, args) ∧ g ∈ args
  | .notOrElim, premises, g => ∃ f d args a, premises = [f] ∧ s.view f = (.not, [d]) ∧
      s.view d = (.or, args) ∧ a ∈ args ∧ s.view g = (.not, [a])
  | .unitResolution, premises, g => g = Store.falseId ∧
      ((∃ f n, s.view n = (.not, [f]) ∧ (premises = [f, n] ∨ premises = [n, f])) ∨
        ∃ clause literals negations, premises = clause :: negations ∧
          s.view clause = (.or, literals) ∧
          List.Forall₂ (fun l n => s.view n = (.not, [l])) literals negations)
  | .discharge, premises, g => premises = [Store.falseId] ∧ ∃ l, s.view g = (.not, [l])
  | .substitution, premises, _ => ∃ f e, premises = [f, e]
  | .bitBlast, premises, g => (premises = [] ∧ ∃ a b, s.view g = (.eq, [a, b])) ∨
      ∃ f, premises = [f]

namespace Store

variable {s after : Store} {f g : TermId} {op : Op} {args premises : List TermId}
  {rule : ProofRule}

/-- A term with another head than `false` keeps its head and arguments when the store grows. -/
theorem Extends.view_of (grown : s.Extends after) (view : s.view f = (op, args))
    (other : op ≠ .bool false) : after.view f = (op, args) := by
  have head : s.op f = op := congrArg Prod.fst view
  rw [grown.view_eq (lt_size_of_op (head ▸ other)), view]

/-- What a rule allows it still allows when the store grows. -/
theorem Allows.mono (allowed : s.Allows rule premises g) (grown : s.Extends after) :
    after.Allows rule premises g := by
  cases rule with
  | asserted | hypothesis | substitution => exact allowed
  | bitBlast =>
    obtain ⟨none, a, b, view⟩ | single := allowed
    · exact .inl ⟨none, a, b, grown.view_of view (by simp)⟩
    · exact .inr single
  | rewriting =>
    obtain ⟨none, f, g, view⟩ := allowed
    exact ⟨none, f, g, grown.view_of view (by simp)⟩
  | modusPonens =>
    obtain ⟨f, e, same, view⟩ := allowed
    exact ⟨f, e, same, grown.view_of view (by simp)⟩
  | andElim =>
    obtain ⟨f, args, same, view, member⟩ := allowed
    exact ⟨f, args, same, grown.view_of view (by simp), member⟩
  | notOrElim =>
    obtain ⟨f, d, args, a, same, outer, inner, member, view⟩ := allowed
    exact ⟨f, d, args, a, same, grown.view_of outer (by simp), grown.view_of inner (by simp), member,
      grown.view_of view (by simp)⟩
  | unitResolution =>
    obtain ⟨same, ⟨f, n, view, pair⟩ | ⟨clause, literals, negations, pair, view, each⟩⟩ := allowed
    · exact ⟨same, .inl ⟨f, n, grown.view_of view (by simp), pair⟩⟩
    · have each : List.Forall₂ (fun l n => after.view n = (.not, [l])) literals negations :=
        each.imp fun _ _ view => grown.view_of view (by simp)
      exact ⟨same, .inr ⟨clause, literals, negations, pair, grown.view_of view (by simp), each⟩⟩
  | discharge =>
    obtain ⟨same, l, view⟩ := allowed
    exact ⟨same, l, grown.view_of view (by simp)⟩

end Store

namespace Proof

/-- The steps of a proof, each with the conclusions of the lemmas above it. -/
inductive Has : Proof → List TermId → Proof → Prop
  /-- The last step. -/
  | last (p : Proof) : Has p [] p
  /-- The steps of the premises of an ordinary step. -/
  | ordinary {p premise q : Proof} {lemmas : List TermId} (member : premise ∈ p.premises)
      (other : p.rule ≠ .discharge) (deeper : Has premise lemmas q) : Has p lemmas q
  /-- The steps of the premise of a lemma. -/
  | discharged {p premise q : Proof} {lemmas : List TermId} (member : premise ∈ p.premises)
      (discharges : p.rule = .discharge) (deeper : Has premise lemmas q) :
      Has p (p.conclusion :: lemmas) q

/-- A step that stands below lemmas is sound, given assertions and assumptions. -/
structure Sound (s : Store) (given assumed : TermId → Prop) (lemmas : List TermId) (q : Proof) :
    Prop where
  /-- The conclusion is in the store. -/
  inside : q.conclusion < s.size
  /-- The rule allows the conclusion. -/
  allowed : s.Allows q.rule (q.premises.map conclusion) q.conclusion
  /-- What is asserted is given. -/
  asserted : q.rule = .asserted → given q.conclusion
  /-- A hypothesis is assumed or below a lemma that concludes its negation. -/
  hypothesis : q.rule = .hypothesis →
    assumed q.conclusion ∨ ∃ n ∈ lemmas, s.view n = (.not, [q.conclusion])

/-- All steps are sound. -/
def Valid (s : Store) (given assumed : TermId → Prop) (p : Proof) : Prop :=
  ∀ lemmas q, p.Has lemmas q → q.Sound s given assumed lemmas

/-- A valid proof of `false`. -/
def Refutes (s : Store) (given assumed : TermId → Prop) (p : Proof) : Prop :=
  p.conclusion = Store.falseId ∧ p.Valid s given assumed

variable {s after : Store} {given assumed more : TermId → Prop} {p q : Proof} {f g : TermId}
  {lemmas : List TermId} {rule : ProofRule} {premises : List Proof}

/-- A sound step is so with more assumptions. -/
theorem Sound.weaken (sound : q.Sound s given assumed lemmas) (all : ∀ f, assumed f → more f) :
    q.Sound s given more lemmas where
  inside := sound.inside
  allowed := sound.allowed
  asserted := sound.asserted
  hypothesis rule := (sound.hypothesis rule).imp (all _) id

/-- A sound step stays so when the store grows. -/
theorem Sound.mono (sound : q.Sound s given assumed lemmas) (grown : s.Extends after) :
    q.Sound after given assumed lemmas where
  inside := grown.lt_size sound.inside
  allowed := sound.allowed.mono grown
  asserted := sound.asserted
  hypothesis rule := (sound.hypothesis rule).imp_right fun ⟨n, member, view⟩ =>
    ⟨n, member, grown.view_of view (by simp)⟩

/-- A lemma above a step is the conclusion of a step. -/
theorem Has.exists_of_mem (has : p.Has lemmas q) {n : TermId} (member : n ∈ lemmas) :
    ∃ others step, p.Has others step ∧ step.conclusion = n := by
  induction has with
  | last => cases member
  | ordinary inside other _ deeper =>
    obtain ⟨others, step, found, same⟩ := deeper member
    exact ⟨others, step, .ordinary inside other found, same⟩
  | @discharged p _ _ _ inside discharges _ deeper =>
    rcases List.mem_cons.mp member with rfl | later
    · exact ⟨[], p, .last p, rfl⟩
    · obtain ⟨others, step, found, same⟩ := deeper later
      exact ⟨_, step, .discharged inside discharges found, same⟩

namespace Valid

/-- A valid proof is so with more assumptions. -/
theorem weaken (valid : p.Valid s given assumed) (all : ∀ f, assumed f → more f) :
    p.Valid s given more := fun lemmas q has => (valid lemmas q has).weaken all

/-- A valid proof stays so when the store grows. -/
theorem mono (valid : p.Valid s given assumed) (grown : s.Extends after) :
    p.Valid after given assumed := fun lemmas q has => (valid lemmas q has).mono grown

/-- A valid proof in a store that has grown was valid before, if it was so with more
assumptions. -/
theorem of_extends (known : p.Valid s given more) (grown : s.Extends after)
    (later : p.Valid after given assumed) : p.Valid s given assumed := by
  intro lemmas q has
  obtain ⟨inside, allowed, asserted, _⟩ := known lemmas q has
  refine ⟨inside, allowed, asserted, fun rule => ?_⟩
  refine ((later lemmas q has).hypothesis rule).imp_right fun ⟨n, member, view⟩ => ?_
  obtain ⟨others, step, found, rfl⟩ := has.exists_of_mem member
  exact ⟨_, member, (grown.view_eq (known others step found).inside).symm.trans view⟩

/-- The conclusion of a valid proof is in the store. -/
theorem inside (valid : p.Valid s given assumed) : p.conclusion < s.size :=
  (valid [] p (.last p)).inside

/-- An ordinary step of valid proofs is valid if the rule allows it. -/
theorem step {mark : ℕ} (inside : f < s.size)
    (allowed : s.Allows rule (premises.map conclusion) f) (asserted : rule = .asserted → given f)
    (hypothesis : rule = .hypothesis → assumed f) (ordinary : rule ≠ .discharge)
    (valid : ∀ p ∈ premises, p.Valid s given assumed) :
    (Proof.step mark rule premises f).Valid s given assumed := by
  intro lemmas q has
  cases has with
  | last => exact ⟨inside, allowed, asserted, fun rule => .inl (hypothesis rule)⟩
  | ordinary member _ deeper => exact valid _ member lemmas q deeper
  | discharged _ discharges _ => exact absurd discharges ordinary

/-- A lemma discharges a hypothesis of a refutation. -/
theorem lemma_of {mark : ℕ} {l : TermId} (refutes : p.Refutes s given assumed)
    (all : ∀ f, assumed f → more f ∨ f = l) (inside : g < s.size)
    (view : s.view g = (.not, [l])) : (Proof.step mark .discharge [p] g).Valid s given more := by
  intro lemmas q has
  cases has with
  | last =>
    refine ⟨inside, ⟨?_, l, view⟩, by simp [Proof.rule], by simp [Proof.rule]⟩
    exact congrArg (fun f => [f]) refutes.1
  | ordinary _ other _ => exact absurd rfl other
  | discharged member _ deeper =>
    obtain rfl := List.mem_singleton.mp member
    obtain ⟨inside, allowed, asserted, hypothesis⟩ := refutes.2 _ q deeper
    refine ⟨inside, allowed, asserted, fun rule => ?_⟩
    rcases hypothesis rule with assumed | ⟨n, member, found⟩
    · rcases all _ assumed with more | rfl
      · exact .inl more
      · exact .inr ⟨g, List.mem_cons_self .., view⟩
    · exact .inr ⟨n, List.mem_cons_of_mem _ member, found⟩

end Valid

/-- An ordinary step from valid proofs is valid if the rule allows it. -/
theorem make_valid (inside : f < s.size) (allowed : s.Allows rule (premises.map conclusion) f)
    (asserted : rule = .asserted → given f) (hypothesis : rule = .hypothesis → assumed f)
    (ordinary : rule ≠ .discharge) (valid : ∀ p ∈ premises, p.Valid s given assumed) :
    (make rule premises f).Ensures s fun p after =>
      p.conclusion = f ∧ p.Valid after given assumed :=
  ⟨rfl, (Valid.step inside allowed asserted hypothesis ordinary valid).mono
    ((make rule premises f).grows s)⟩

/-- A lemma discharges a hypothesis of a refutation. -/
theorem discharge_valid {l : TermId} (refutes : p.Refutes s given assumed)
    (all : ∀ f, assumed f → more f ∨ f = l) (inside : g < s.size)
    (view : s.view g = (.not, [l])) :
    (discharge p g).Ensures s fun q after => q.conclusion = g ∧ q.Valid after given more :=
  ⟨rfl, (Valid.lemma_of refutes all inside view).mono ((discharge p g).grows s)⟩

/-- A refutation stays so when the store grows. -/
theorem Refutes.mono (refutes : p.Refutes s given assumed) (grown : s.Extends after) :
    p.Refutes after given assumed := ⟨refutes.1, refutes.2.mono grown⟩

end Proof
end Stratagem
