import Stratagem.Goal
import Stratagem.Proofs.Reasoning

/-!
# Two runs of one computation

A computation may carry a state of which it only reads a part. From two states that agree in that
part its runs are twins: they have the same outcome, they build the same terms, and the states that
they leave agree again. Twins are followed one step at a time, like single runs; the relation of
the states may say something about the store, as long as that lasts while the store grows.
-/
namespace Stratagem

open Store (Extends)

variable {α β γ σ : Type}

namespace Terms

/-- Two computations leave the same store, and their answers and the store satisfy a condition. -/
def Twin (first second : Terms α) (s : Store) (post : α → α → Store → Prop) : Prop :=
  (first.run s).2 = (second.run s).2 ∧ post (first.run s).1 (second.run s).1 (first.run s).2

variable {s : Store} {first second : Terms α} {post : α → α → Store → Prop}

/-- Two results alone. -/
theorem twin_pure {a b : α} (holds : post a b s) : Twin (pure a) (pure b) s post := ⟨rfl, holds⟩

/-- Two computations and then others on their results. -/
theorem twin_bind {next other : α → Terms β} {final : β → β → Store → Prop}
    (twin : Twin first second s post)
    (rest : ∀ a b after, s.Extends after → post a b after →
      Twin (next a) (other b) after final) :
    Twin (first >>= next) (second >>= other) s final := by
  obtain ⟨same, holds⟩ := twin
  have later := rest _ _ _ (first.grows s) holds
  show ((next (first.run s).1).run (first.run s).2).2 =
      ((other (second.run s).1).run (second.run s).2).2 ∧
    final ((next (first.run s).1).run (first.run s).2).1
      ((other (second.run s).1).run (second.run s).2).1
      ((next (first.run s).1).run (first.run s).2).2
  rw [← same]
  exact later

/-- Looking at the store and then two computations for it. -/
theorem twin_read_bind {next other : Store → Terms α} (twin : Twin (next s) (other s) s post) :
    Twin (read >>= next) (read >>= other) s post := twin

/-- What follows from what two computations answer. -/
theorem Twin.imp {weaker : α → α → Store → Prop} (twin : Twin first second s post)
    (follows : ∀ a b after, s.Extends after → post a b after → weaker a b after) :
    Twin first second s weaker :=
  ⟨twin.1, follows _ _ _ (first.grows s) twin.2⟩

end Terms

namespace Attempt

/-- The runs of an attempt from two states have the same outcome and leave the same store and
related states; a result and the store satisfy a condition. -/
def Twins (work : Attempt σ α) (x y : σ) (s : Store) (related : σ → σ → Store → Prop)
    (good : α → Store → Prop) : Prop :=
  Terms.Twin (work.runFrom x) (work.runFrom y) s fun found other after =>
    found.1 = other.1 ∧ related found.2 other.2 after ∧ ∀ a, found.1 = .ok a → good a after

variable {s : Store} {x y : σ} {related : σ → σ → Store → Prop} {good : α → Store → Prop}
  {final : β → Store → Prop} {work : Attempt σ α} {next : α → Attempt σ β}

/-- A result alone. -/
theorem twins_pure {a : α} (holds : related x y s) (result : good a s) :
    (pure a : Attempt σ α).Twins x y s related good := by
  refine ⟨rfl, rfl, holds, fun b same => ?_⟩
  obtain rfl := Except.ok.inj same
  exact result

/-- A failure. -/
theorem twins_throw {e : Error} (holds : related x y s) :
    (throw e : Attempt σ α).Twins x y s related good := ⟨rfl, rfl, holds, nofun⟩

/-- An attempt and then another one on its result. -/
theorem twins_bind (twins : work.Twins x y s related good)
    (rest : ∀ a x' y' after, s.Extends after → related x' y' after → good a after →
      (next a).Twins x' y' after related final) :
    (work >>= next).Twins x y s related final := by
  show Terms.Twin
    (work.runFrom x >>= fun found => StateT.run (ExceptT.bindCont next found.1) found.2)
    (work.runFrom y >>= fun found => StateT.run (ExceptT.bindCont next found.1) found.2) s _
  refine Terms.twin_bind twins ?_
  rintro ⟨outcome, x'⟩ ⟨other, y'⟩ after grown ⟨same, holds, result⟩
  obtain rfl : outcome = other := same
  cases outcome with
  | ok a => exact rest a x' y' after grown holds (result a rfl)
  | error e => exact ⟨rfl, rfl, holds, nofun⟩

/-- What follows from how two runs are related and from their result. -/
theorem Twins.imp {weaker : σ → σ → Store → Prop} {fewer : α → Store → Prop}
    (twins : work.Twins x y s related good)
    (states : ∀ x' y' after, s.Extends after → related x' y' after → weaker x' y' after)
    (results : ∀ a after, s.Extends after → good a after → fewer a after) :
    work.Twins x y s weaker fewer :=
  Terms.Twin.imp twins fun _ _ after grown found =>
    ⟨found.1, states _ _ after grown found.2.1, fun a same => results a after grown
      (found.2.2 a same)⟩

/-- Looking at what two states agree in. -/
theorem twins_get_bind {next : σ → Attempt σ β} (same : next x = next y)
    (twins : (next x).Twins x y s related final) : (get >>= next).Twins x y s related final := by
  have agree : (next x).runFrom y = (next y).runFrom y := congrArg (fun work => work.runFrom y) same
  show Terms.Twin ((next x).runFrom x) ((next y).runFrom y) s _
  rw [← agree]
  exact twins

/-- Looking at the store. -/
theorem twins_read_bind {next : Store → Attempt σ β} (twins : (next s).Twins x y s related final) :
    (readThe Store >>= next).Twins x y s related final := twins

/-- Changing both states. -/
theorem twins_modify {change : σ → σ} {good : PUnit → Store → Prop}
    (holds : related (change x) (change y) s) (result : good ⟨⟩ s) :
    (modify change : Attempt σ PUnit).Twins x y s related good := ⟨rfl, rfl, holds, fun _ _ => result⟩

/-- Changing both states, and then an attempt. -/
theorem twins_modify_bind {change : σ → σ} {next : PUnit → Attempt σ β}
    (twins : (next ⟨⟩).Twins (change x) (change y) s related final) :
    (modify change >>= next).Twins x y s related final := twins

/-- Building terms of which something is known. -/
theorem twins_build {build : Terms α} {post : α → Store → Prop}
    (lasting : ∀ after, s.Extends after → related x y s → related x y after)
    (holds : related x y s) (built : build.Ensures s post) :
    (Attempt.build build : Attempt σ α).Twins x y s related post := by
  refine ⟨rfl, rfl, lasting _ (build.grows s) holds, fun a same => ?_⟩
  obtain rfl := Except.ok.inj same
  exact built

/-- Building terms of which nothing needs to be known. -/
theorem twins_build_any {build : Terms α}
    (lasting : ∀ after, s.Extends after → related x y s → related x y after)
    (holds : related x y s) :
    (Attempt.build build : Attempt σ α).Twins x y s related fun _ _ => True :=
  twins_build lasting holds trivial

/-- Building terms of which something is known, and then an attempt. -/
theorem twins_build_bind {build : Terms α} {post : α → Store → Prop}
    (lasting : ∀ after, s.Extends after → related x y s → related x y after)
    (holds : related x y s) (built : build.Ensures s post)
    (rest : ∀ a after, s.Extends after → related x y after → post a after →
      (next a).Twins x y after related final) :
    ((liftM build : Attempt σ α) >>= next).Twins x y s related final :=
  rest _ _ (build.grows s) (lasting _ (build.grows s) holds) built

/-- Checking the circumstances. -/
theorem twins_check {context : Context} (holds : related x y s) :
    (Attempt.check context : Attempt σ Unit).Twins x y s related fun _ after => after = s := by
  refine twins_read_bind ?_
  cases context.check s with
  | ok => exact twins_pure holds rfl
  | error => exact twins_throw holds

/-- An outcome alone. -/
theorem twins_ofExcept {outcome : Except Error α} (holds : related x y s)
    (result : ∀ a, outcome = .ok a → good a s) :
    (Attempt.ofExcept outcome : Attempt σ α).Twins x y s related good := by
  cases outcome with
  | ok a => exact twins_pure holds (result a rfl)
  | error e => exact twins_throw holds

/-- An attempt on every member of a list. The condition on a result must outlast the attempts on
the later members. -/
theorem twins_mapM {work : α → Attempt σ β} {good : β → Store → Prop}
    (lasting : ∀ b before after, Extends before after → good b before → good b after) :
    ∀ (members : List α) {x y : σ} {s : Store}, related x y s →
    (∀ a ∈ members, ∀ x' y' now, s.Extends now → related x' y' now →
      (work a).Twins x' y' now related good) →
    (members.mapM work).Twins x y s related fun results after => ∀ b ∈ results, good b after
  | [], _, _, _, holds, _ => twins_pure holds nofun
  | a :: rest, x, y, s, holds, each => by
    rw [List.mapM_cons]
    refine twins_bind (each a (List.mem_cons_self ..) x y s (.refl s) holds) ?_
    intro b x' y' middle grown holds first
    have later : ∀ a ∈ rest, ∀ x' y' now, middle.Extends now → related x' y' now →
        (work a).Twins x' y' now related good :=
      fun a member x' y' now more => each a (List.mem_cons_of_mem _ member) x' y' now
        (grown.trans more)
    refine twins_bind (twins_mapM lasting rest holds later) fun results x'' y'' after more holds
      others => ?_
    exact twins_pure holds (List.forall_mem_cons.mpr ⟨lasting b middle after more first, others⟩)

end Attempt

namespace Goal

open Attempt

variable {σ : Type} {a b : σ} {related : σ → σ → Store → Prop}
  {visit : ℕ → Entry → Goal → Attempt σ Goal}

/-- Visiting slots of a goal. -/
theorem visitFrom_twins (each : ∀ slot e g a b s, related a b s →
    (visit slot e g).Twins a b s related fun _ _ => True) (rounds slot : ℕ) (g : Goal)
    (holds : related a b s) :
    (visitFrom visit rounds slot g).Twins a b s related fun _ _ => True := by
  induction rounds generalizing slot g a b s with
  | zero => exact twins_pure holds trivial
  | succ rounds later =>
    unfold visitFrom
    split
    · split
      · exact twins_pure holds trivial
      · exact twins_bind (each _ _ _ _ _ _ holds) fun g a b s _ holds _ => later _ g holds
    · exact twins_pure holds trivial

/-- Visiting all slots of a goal. -/
theorem visitAll_twins (each : ∀ slot e g a b s, related a b s →
    (visit slot e g).Twins a b s related fun _ _ => True) (g : Goal) (holds : related a b s) :
    (visitAll visit g).Twins a b s related fun _ _ => True := by
  refine twins_bind (visitFrom_twins each _ _ g holds) fun g a b s _ holds _ => ?_
  split
  · exact twins_pure holds trivial
  · exact twins_throw holds

end Goal

end Stratagem
