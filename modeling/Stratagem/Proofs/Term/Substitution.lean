import Stratagem.Proofs.Rewriting.Simplifier
import Stratagem.Proofs.Term.Traversal

/-!
# Terms after substitution

What a substitution puts in the place of a term is built from what it puts in the place of the
arguments, and terms are remembered, so that the store grows by at most one term for each term that
is visited.

Replacing constants by terms of their sorts gives a well-sorted term. Its value under an assignment
is that of the term under the assignment that gives each replaced constant the value of its image.
-/
namespace Stratagem

open Store (Extends)

variable {map memo : Substitution} {Γ Δ : Signature} {I J : Assignment} {s after : Store}
  {t u : TermId}

/-- The substitution of one constant has no other image. -/
theorem Substitution.getElem?_single {x image k : TermId} :
    (Std.HashMap.ofList [(x, image)])[k]? = some u ↔ k = x ∧ u = image := by
  rw [Std.HashMap.ofList_singleton, Std.HashMap.getElem?_insert]
  split
  · next same => rw [eq_of_beq same, Option.some.injEq, and_iff_right rfl, eq_comm]
  · next other =>
    have other : ¬k = x := fun same => other (beq_iff_eq.mpr same.symm)
    simp [other]

namespace Terms

section Growth

/-- Terms below a position have been visited: nothing else is remembered, and for each term that is
remembered now the store has grown by at most one. -/
structure Charged (n : ℕ) (s after : Store) (memo found : Substitution) : Prop where
  /-- What is remembered about other terms stays. -/
  later : ∀ t, n ≤ t → found[t]? = memo[t]?
  /-- The terms in the store and those not remembered do not grow together. -/
  size : ∀ m, n ≤ m → after.size + found.missing m ≤ s.size + memo.missing m

namespace Charged

variable {n : ℕ} {middle : Store} {found : Substitution}

/-- Nothing has been visited. -/
theorem refl (n : ℕ) (s : Store) (memo : Substitution) : Charged n s s memo memo :=
  ⟨fun _ _ => rfl, fun _ _ => Nat.le_refl _⟩

/-- One visit after the other. -/
theorem trans {last : Substitution} (first : Charged n s middle memo found)
    (second : Charged n middle after found last) : Charged n s after memo last where
  later t le := (second.later t le).trans (first.later t le)
  size m le := (second.size m le).trans (first.size m le)

/-- A position further on. -/
theorem mono {m : ℕ} (charged : Charged m s after memo found) (le : m ≤ n) :
    Charged n s after memo found where
  later t further := charged.later t (le.trans further)
  size k further := charged.size k (le.trans further)

/-- A term is remembered after its arguments. -/
theorem insert (charged : Charged t s middle memo found) (new : memo[t]? = none)
    (one : after.size ≤ middle.size + 1) : Charged (t + 1) s after memo (found.insert t u) where
  later x le := by
    have different : t ≠ x := Nat.ne_of_lt le
    rw [Std.HashMap.getElem?_insert, if_neg (by simpa using different)]
    exact charged.later x (Nat.le_of_lt le)
  size m le := by
    have missing : found[t]? = none := (charged.later t (Nat.le_refl t)).trans new
    have fewer : Substitution.missing (found.insert t u) m + 1 = found.missing m :=
      Substitution.missing_insert missing le
    have before := charged.size m (Nat.le_of_lt le)
    omega

end Charged

end Growth

/-- Substituting in terms one after the other: what each computation keeps holds in the end, and
each result stands in its relation to its term. -/
theorem mapM_run_ensures {visit : TermId → StateT Substitution Terms TermId}
    {P : Store → Substitution → Prop} {K : Store → TermId → TermId → Prop}
    (lasting : ∀ {s after : Store} {t u : TermId}, K s u t → s.Extends after →
      K after u t) (terms : List TermId) (known : P s memo)
    (each : ∀ a ∈ terms, ∀ now memo, s.Extends now → P now memo →
      ((visit a).run memo).Ensures now fun r after => K after r.1 a ∧ P after r.2) :
    ((terms.mapM visit).run memo).Ensures s fun r after =>
      List.Forall₂ (K after) r.1 terms ∧ P after r.2 := by
  induction terms generalizing s memo with
  | nil => exact ensures_pure ⟨.nil, known⟩
  | cons a rest tail =>
    rw [List.mapM_cons, StateT.run_bind]
    apply ensures_bind (each a (List.mem_cons_self ..) s memo (.refl s) known)
    rintro ⟨u, memo⟩ middle grown ⟨first, known⟩
    rw [StateT.run_bind]
    apply ensures_bind (tail known fun b member now memo more =>
      each b (List.mem_cons_of_mem _ member) now memo (grown.trans more))
    rintro ⟨us, memo⟩ last more ⟨all, known⟩
    exact ensures_pure ⟨.cons (lasting first more) all, known⟩

/-- A relation of terms and what a substitution puts in their place, in a store and those that it
grows to. -/
structure Replacement (map : Substitution) (base : Store) where
  /-- The terms in which is substituted. -/
  Member : Store → TermId → Prop
  /-- A term can be put in the place of another one. -/
  Stands : Store → TermId → TermId → Prop
  /-- Members are in the store. -/
  inside : ∀ {s : Store} {t : TermId}, Member s t → t < s.size
  /-- Arguments of members are members. -/
  args : ∀ {s : Store} {t a : TermId}, Member s t → a ∈ s.args t → Member s a
  /-- Members stay when the store grows. -/
  mono : ∀ {s after : Store} {t : TermId}, Member s t → s.Extends after → Member after t
  /-- Terms do not become members when the store grows. -/
  back : ∀ {s after : Store} {t : TermId}, s.Extends after → t < s.size → Member after t → Member s t
  /-- Members have no bound variables. -/
  unbound : ∀ {s : Store} {t : TermId}, Member s t → (s.op t).binders? = none
  /-- What stands for a term does so when the store grows. -/
  lasting : ∀ {s after : Store} {t u : TermId}, Stands s u t → s.Extends after → Stands after u t
  /-- The image of a member stands for it. -/
  image : ∀ {s : Store} {t u : TermId}, base.Extends s → Member s t → map[t]? = some u → Stands s u t
  /-- A member without an image is built from what stands for its arguments. -/
  rebuilt : ∀ {s : Store} {t : TermId} {args : List TermId}, base.Extends s → Member s t →
    map[t]? = none → List.Forall₂ (Stands s) args (s.args t) →
    (rebuild t args).Ensures s fun u after => Stands after u t

namespace Replacement

variable {base : Store} (R : Replacement map base)

/-- What was substituted so far stands for what it was made of. -/
def Knows (s : Store) (memo : Substitution) : Prop :=
  ∀ t u, memo[t]? = some u → t < s.size ∧ (R.Member s t → R.Stands s u t)

variable {R}

/-- What was substituted stays right when the store grows. -/
theorem Knows.mono (known : R.Knows s memo) (grown : s.Extends after) : R.Knows after memo := by
  intro t u found
  obtain ⟨inside, stands⟩ := known t u found
  refine ⟨grown.lt_size inside, fun member => ?_⟩
  exact R.lasting (stands (R.back grown inside member)) grown

/-- One more term is substituted. -/
theorem Knows.insert (known : R.Knows s memo) (inside : t < s.size) (stands : R.Stands s u t) :
    R.Knows s (memo.insert t u) := by
  intro t' u' found
  rw [Std.HashMap.getElem?_insert] at found
  split at found
  · next same =>
    obtain rfl := eq_of_beq same
    obtain rfl := Option.some.inj found
    exact ⟨inside, fun _ => stands⟩
  · exact known t' u' found

/-- Reading the images found so far, and then a computation. -/
theorem ensures_get_bind {next : Substitution → StateT Substitution Terms α}
    {final : α × Substitution → Store → Prop} (ensured : ((next memo).run memo).Ensures s final) :
    ((get >>= next).run memo).Ensures s final := ensured

/-- Reading the store and then a computation with a state. -/
theorem ensures_readThe_bind {α : Type} {next : Store → StateT Substitution Terms α}
    {post : α × Substitution → Store → Prop} (ensured : ((next s).run memo).Ensures s post) :
    ((readThe Store >>= next).run memo).Ensures s post := ensured

/-- The arguments of a term are substituted one after the other. -/
theorem mapM_ensures {visit : TermId → StateT Substitution Terms TermId} {n : ℕ}
    (args : List TermId) (below : ∀ a ∈ args, a < n) (members : ∀ a ∈ args, R.Member s a)
    (known : R.Knows s memo)
    (each : ∀ a ∈ args, ∀ memo now, s.Extends now → R.Knows now memo →
      ((visit a).run memo).Ensures now fun r after =>
        R.Stands after r.1 a ∧ R.Knows after r.2 ∧ Charged (a + 1) now after memo r.2) :
    ((args.mapM visit).run memo).Ensures s fun r after =>
      List.Forall₂ (R.Stands after) r.1 args ∧ R.Knows after r.2 ∧ Charged n s after memo r.2 := by
  refine mapM_run_ensures (K := R.Stands)
    (P := fun now found => R.Knows now found ∧ Charged n s now memo found) R.lasting args ⟨known, .refl n s memo⟩ fun a member now found grown ⟨known, charged⟩ => ?_
  refine (each a member found now grown known).imp fun r after _ ⟨stands, known, more⟩ => ?_
  exact ⟨stands, known, charged.trans (more.mono (below a member))⟩

/-- Substituting in a member gives a term that stands for it. -/
theorem substituteTo_ensures {depth : ℕ} (grown : base.Extends s) (member : R.Member s t)
    (deep : t < depth) (known : R.Knows s memo) :
    ((substituteTo map depth t).run memo).Ensures s fun r after =>
      R.Stands after r.1 t ∧ R.Knows after r.2 ∧ Charged (t + 1) s after memo r.2 := by
  induction depth generalizing s t memo with
  | zero => exact absurd deep (Nat.not_lt_zero t)
  | succ depth deeper =>
    unfold substituteTo
    cases found : map[t]? with
    | some image =>
      exact Terms.ensures_pure ⟨R.image grown member found, known, .refl _ s memo⟩
    | none =>
      refine ensures_get_bind ?_
      cases remembered : memo[t]? with
      | some u =>
        exact Terms.ensures_pure ⟨(known t u remembered).2 member, known, .refl _ s memo⟩
      | none =>
        have unbound : (s.node t).op.binders? = none := R.unbound member
        have arguments : (((s.node t).args.mapM (substituteTo map depth)).run memo).Ensures s _ :=
          mapM_ensures (s.args t) (fun a => Store.lt_of_mem_args) (fun a => R.args member) known
            fun a argument memo now more known => deeper (grown.trans more)
              (R.mono (R.args member argument) more)
              ((Store.lt_of_mem_args argument).trans_le (Nat.le_of_lt_succ deep)) known
        have rest : ∀ (args : List TermId) (found' : Substitution) (now : Store), s.Extends now →
            List.Forall₂ (R.Stands now) args (s.args t) → R.Knows now found' →
            Charged t s now memo found' →
            ((do
              let image ← rebuild t args
              modify (·.insert t image)
              return image : StateT Substitution Terms TermId).run found').Ensures now
                fun r after => R.Stands after r.1 t ∧ R.Knows after r.2 ∧
                  Charged (t + 1) s after memo r.2 := by
          intro args found' now more stands known charged
          rw [← more.args_eq (R.inside member)] at stands
          have rebuilt := (R.rebuilt (grown.trans more) (R.mono member more) found stands).and
            (rebuild_size t args)
          show (rebuild t args >>= fun image => pure (image, found'.insert t image)).Ensures now _
          apply Terms.ensures_bind rebuilt
          rintro u after last ⟨stands, one⟩
          have inside := last.lt_size (more.lt_size (R.inside member))
          exact Terms.ensures_pure
            ⟨stands, (known.mono last).insert inside stands, charged.insert remembered one⟩
        refine ensures_readThe_bind ?_
        dsimp only
        rw [unbound]
        dsimp only
        rw [StateT.run_bind]
        apply Terms.ensures_bind arguments
        rintro ⟨args, memo⟩ middle more ⟨stands, known, charged⟩
        exact rest args memo middle more stands known charged

/-- Substituting in a member gives a term that stands for it, and adds at most one term to the store
for each term up to that one. -/
theorem substitute_ensures (R : Replacement map base) (member : R.Member base t)
    (some : map.isEmpty = false) :
    (substitute t map).Ensures base fun u after =>
      R.Stands after u t ∧ after.size ≤ base.size + (t + 1) := by
  have empty : R.Knows base ∅ := by
    intro t u found
    simp at found
  unfold substitute
  rw [if_neg (by simp [some])]
  apply Terms.ensures_bind
    (substituteTo_ensures (.refl base) member (Nat.lt_succ_self t) empty)
  rintro ⟨u, memo⟩ after _ ⟨stands, _, charged⟩
  refine Terms.ensures_pure ⟨stands, ?_⟩
  have size := charged.size (t + 1) (Nat.le_refl _)
  have few := Substitution.missing_le ∅ (t + 1)
  omega

end Replacement

end Terms

/-- A substitution leads from terms over one signature, read under one assignment, to terms over
another one, read under another assignment: images have the sorts and the values of their
constants, and all other constants keep their values. -/
structure Store.Links (s : Store) (map : Substitution) (Γ Δ : Signature) (I J : Assignment) :
    Prop where
  /-- Only constants are replaced. -/
  constants : ∀ k image : TermId, map[k]? = some image → ∃ name sort, s.node k = ⟨.var name, [], sort⟩
  /-- Images are well-sorted. -/
  sorted : ∀ k image : TermId, map[k]? = some image → s.WellSorted Δ image
  /-- Images have the sorts of their constants. -/
  sorts : ∀ k image : TermId, map[k]? = some image → s.sortOf image = s.sortOf k
  /-- Images have the values of their constants. -/
  values : ∀ k image : TermId, map[k]? = some image → s.value I image = s.value J k
  /-- Other constants keep their values. -/
  others : ∀ name sort, Γ.constant name sort → sort = .bool ∨ sort.isArith →
    (∀ k image : TermId, map[k]? = some image → s.node k ≠ ⟨.var name, [], sort⟩) →
    Δ.constant name sort ∧ I.constant name sort = J.constant name sort
  /-- Casts of reals stay. -/
  casts : Γ.realCasts → Δ.realCasts

namespace Store.Links

/-- A constant that is replaced is in the store. -/
theorem inside (links : s.Links map Γ Δ I J) {image : TermId} (found : map[t]? = some image) :
    t < s.size := by
  obtain ⟨name, sort, node⟩ := links.constants t image found
  exact Store.lt_size_of_var (congrArg Node.op node)

/-- A substitution leads to the same when the store grows. -/
theorem mono (links : s.Links map Γ Δ I J) (grown : s.Extends after) :
    after.Links map Γ Δ I J where
  constants k image found := by
    obtain ⟨name, sort, node⟩ := links.constants k image found
    exact ⟨name, sort, (grown.node_eq (links.inside found)).trans node⟩
  sorted k image found := (links.sorted k image found).mono grown
  sorts k image found := by
    rw [grown.sortOf_eq (links.sorted k image found).inside, grown.sortOf_eq (links.inside found)]
    exact links.sorts k image found
  values k image found := by
    rw [grown.value_eq I (links.sorted k image found).inside,
      grown.value_eq J (links.inside found)]
    exact links.values k image found
  others name sort known kind absent := links.others name sort known kind fun k image found node =>
    absent k image found ((grown.node_eq (links.inside found)).trans node)
  casts := links.casts

end Store.Links

namespace Store

/-- A term stands for another one under a substitution: it fits in its place and has under one
assignment the value that the other has under another one. -/
structure Stands (s : Store) (Δ : Signature) (I J : Assignment) (u t : TermId) : Prop
    extends s.Matches Δ u t where
  /-- The values agree. -/
  value_eq : s.value I u = s.value J t

/-- What stands for a term does so when the store grows. -/
theorem Stands.mono (known : s.Stands Δ I J u t) (grown : s.Extends after) :
    after.Stands Δ I J u t where
  toMatches := known.toMatches.mono grown
  value_eq := by
    rw [grown.value_eq I known.sorted.inside, grown.value_eq J known.inside, known.value_eq]

/-- A constant has no arguments. -/
theorem WellSorted.args_of_var {name : String} (sorted : s.WellSorted Γ t)
    (head : s.op t = .var name) : s.args t = [] := by
  have fits := sorted.fits
  rw [head] at fits
  cases args : s.args t with
  | nil => rfl
  | cons =>
    rw [args] at fits
    exact fits.elim

/-- An application other than a constant is well-sorted over every signature with the same casts. -/
theorem Fits.of_interpreted {sort : TermSort} {op : Op} {args : List TermId}
    (fits : s.Fits Γ sort op args) (interpreted : ∀ name, op ≠ .var name)
    (casts : Γ.realCasts → Δ.realCasts) : s.Fits Δ sort op args := by
  revert fits
  unfold Fits
  split <;> intro fits
  case h_2 name => exact absurd rfl (interpreted name)
  case h_22 => exact ⟨fits.1, fits.2.imp id fun real => ⟨casts real.1, real.2⟩⟩
  all_goals exact fits

end Store

namespace Terms

/-- Rebuilding an application from what stands for its arguments. -/
theorem rebuild_stands {args : List TermId} (sorted : s.WellSorted Γ t)
    (interpreted : ∀ name, s.op t ≠ .var name) (casts : Γ.realCasts → Δ.realCasts)
    (replaced : List.Forall₂ (s.Stands Δ I J) args (s.args t)) :
    (rebuild t args).Ensures s fun u after => after.Stands Δ I J u t := by
  let both : Signature :=
    ⟨fun name sort => Γ.constant name sort ∨ Δ.constant name sort, Γ.realCasts ∨ Δ.realCasts⟩
  have left : Γ.Within both := ⟨fun _ _ => .inl, .inl⟩
  have right : Δ.Within both := ⟨fun _ _ => .inr, .inr⟩
  have fitting : List.Forall₂ (s.Matches Δ) args (s.args t) :=
    replaced.imp fun _ _ (known : s.Stands Δ I J _ _) => known.toMatches
  have arguments : ∀ a ∈ args, s.WellSorted Δ a := by
    intro a member
    obtain ⟨b, _, known⟩ := exists_of_forall₂ fitting member
    exact known.sorted
  have values : args.map (s.value I) = (s.args t).map (s.value J) := by
    rw [← List.forall₂_eq_eq_eq, List.forall₂_map_left_iff, List.forall₂_map_right_iff]
    exact replaced.imp fun a b known => known.value_eq
  have fits : s.Fits Δ (s.sortOf t) (s.op t) args :=
    (sorted.fits.replace (Store.Matches.sorts fitting)).of_interpreted interpreted casts
  apply (rebuild_node (sorted.mono_within (.refl s) left) fitting right).imp
  intro u after grown found
  have denotes := denotes_of_node (I := I) grown found fits arguments
  refine ⟨⟨grown.lt_size sorted.inside, denotes.sorted, ?_, ?_⟩, ?_⟩
  · rw [denotes.sort_eq, grown.sortOf_eq sorted.inside]
  · intro n head
    rw [grown.op_eq sorted.inside] at head
    have empty := sorted.args_of_int head
    rw [empty] at replaced
    obtain rfl := List.forall₂_nil_right_iff.mp replaced
    apply Store.eq_of_node_eq found.1 (grown.lt_size sorted.inside)
    rw [found.2, grown.node_eq sorted.inside, ← empty]
    rfl
  · rw [denotes.value_eq, values, grown.value_eq J sorted.inside, Store.value_eq]
    exact Op.denote_congr (fun name head => absurd head (interpreted name)) _

/-- A constant that is not replaced stands for itself. -/
theorem stands_of_var {name : String} (links : s.Links map Γ Δ I J) (sorted : s.WellSorted Γ t)
    (head : s.op t = .var name) (absent : map[t]? = none) : s.Stands Δ I J t t := by
  have empty := sorted.args_of_var head
  have fits := sorted.fits
  rw [head, empty] at fits
  have node : s.node t = ⟨.var name, [], s.sortOf t⟩ := by
    rw [← head, ← empty]
    rfl
  have other : ∀ k image : TermId, map[k]? = some image → s.node k ≠ ⟨.var name, [], s.sortOf t⟩ := by
    intro k image found same
    obtain rfl := Store.eq_of_node_eq (links.inside found) sorted.inside (same.trans node.symm)
    rw [absent] at found
    cases found
  obtain ⟨known, agree⟩ := links.others name (s.sortOf t) fits.1 fits.2 other
  refine ⟨⟨sorted.inside, .intro sorted.inside ?_ ?_, rfl, fun _ _ => rfl⟩, ?_⟩
  · rw [head, empty]
    exact ⟨known, fits.2⟩
  · rw [empty]
    nofun
  · rw [Store.value_eq, Store.value_eq, head]
    exact agree

/-- Rebuilding a term that is not replaced from what stands for its arguments. -/
theorem rebuild_substituted {args : List TermId} (links : s.Links map Γ Δ I J)
    (sorted : s.WellSorted Γ t) (absent : map[t]? = none)
    (stands : List.Forall₂ (s.Stands Δ I J) args (s.args t)) :
    (rebuild t args).Ensures s fun u after => after.Stands Δ I J u t := by
  by_cases var : ∃ name, s.op t = .var name
  · obtain ⟨name, head⟩ := var
    have here := stands_of_var links sorted head absent
    have empty : (s.node t).args = [] := sorted.args_of_var head
    rw [Store.args, empty] at stands
    obtain rfl := List.forall₂_nil_right_iff.mp stands
    unfold rebuild
    apply Terms.ensures_read_bind
    rw [if_pos empty]
    exact Terms.ensures_pure here
  · exact rebuild_stands sorted (fun name head => var ⟨name, head⟩) links.casts stands

/-- A well-sorted term has no bound variables. -/
theorem binders?_eq_none (sorted : s.WellSorted Γ t) : (s.op t).binders? = none := by
  have fits := sorted.fits
  cases head : s.op t with
  | universal | existential =>
    rw [head] at fits
    cases args : s.args t <;> rw [args] at fits <;> exact fits.elim
  | _ => rfl

/-- Terms that stand for well-sorted terms. -/
def linked (links : s.Links map Γ Δ I J) : Replacement map s where
  Member s t := s.WellSorted Γ t
  Stands s u t := s.Stands Δ I J u t
  inside := fun sorted => sorted.inside
  args := fun sorted => sorted.of_mem_args
  mono := fun sorted => sorted.mono
  back := fun grown inside sorted => sorted.of_extends grown inside
  unbound := binders?_eq_none
  lasting := fun stands => stands.mono
  image := by
    intro now t image grown _ found
    have links := links.mono grown
    refine ⟨⟨links.inside found, links.sorted t image found, links.sorts t image found,
      fun n head => ?_⟩, links.values t image found⟩
    obtain ⟨name, sort, node⟩ := links.constants t image found
    rw [Store.op, node] at head
    cases head
  rebuilt := fun grown sorted absent stands =>
    rebuild_substituted (links.mono grown) sorted absent stands

/-- Substituting in a well-sorted term gives a term that stands for it. -/
theorem substitute_ensures (links : s.Links map Γ Δ I J) (sorted : s.WellSorted Γ t)
    (some : map.isEmpty = false) :
    (substitute t map).Ensures s fun u after => after.Stands Δ I J u t :=
  ((linked links).substitute_ensures sorted some).imp fun _ _ _ found => found.1

end Terms

end Stratagem
