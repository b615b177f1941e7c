import Stratagem.Proofs.BitBlast.Encoding
import Stratagem.Proofs.Steady.Reasoning

/-!
# Encodings are in the store

Gates and circuits over bits that are in the store give bits that are in the store, and what a
bit-blaster remembers is in the store. So the encoding of a formula is in the store, whatever the
formula and its sort are: nothing is assumed of the formula but that it is there.
-/
namespace Stratagem

variable {s after : Store} {a b c t : TermId} {as bs : Bits}

/-- All bits are in the store. -/
def Bits.Inside (s : Store) (bits : Bits) : Prop := ∀ b ∈ bits, b < s.size

namespace Bits

/-- Bits that are in the store are so when it grows. -/
theorem Inside.mono (known : Bits.Inside s as) (grown : s.Extends after) : Bits.Inside after as :=
  fun b member => grown.lt_size (known b member)

/-- The constant vector of zeros is in every store. -/
theorem inside_zeros (s : Store) (as : Bits) : Bits.Inside s (as.map fun _ => Store.falseId) := by
  intro b member
  obtain ⟨_, _, rfl⟩ := List.mem_map.mp member
  exact s.node_falseId.1

/-- Bits before or after one another. -/
theorem Inside.append (first : Bits.Inside s as) (second : Bits.Inside s bs) :
    Bits.Inside s (as ++ bs) := List.forall_mem_append.mpr ⟨first, second⟩

/-- The pairs of two vectors have bits of both. -/
theorem Inside.zip (first : Bits.Inside s as) (second : Bits.Inside s bs) :
    ∀ p ∈ as.zip bs, p.1 < s.size ∧ p.2 < s.size := fun _ member =>
  ⟨first _ (List.of_mem_zip member).1, second _ (List.of_mem_zip member).2⟩

/-- The bits of a number are in every store. -/
theorem inside_ofNat (s : Store) (value width : ℕ) : Bits.Inside s (Circuit.ofNat value width) := by
  intro b member
  obtain ⟨i, _, rfl⟩ := List.mem_map.mp member
  exact s.ofBool_lt _

end Bits

namespace Terms

/-- The term that a computation gives is in the store. -/
def Lands (work : Terms TermId) (s : Store) : Prop :=
  work.Ensures s fun t after => t < after.size

/-- The bits that a computation gives are in the store. -/
def LandsAll (work : Terms Bits) (s : Store) : Prop :=
  work.Ensures s fun bits after => Bits.Inside after bits

variable {op : Op} {args : List TermId}

/-- The position of a node is in the store. -/
theorem intern_lands (node : Node) (s : Store) : (intern node).Lands s := by
  unfold Lands Ensures intern
  dsimp only
  split
  · next t found => exact (Store.node_of_getElem? ((s.exact node t).mp found)).1
  · split
    · show s.nodes.size < (s.nodes.push node).size
      rw [Array.size_push]
      exact Nat.lt_succ_self _
    · exact s.node_falseId.1

/-- An application is in the store. -/
theorem mkApp_lands (op : Op) (args : List TermId) (s : Store) : (mkApp op args).Lands s := by
  unfold mkApp
  apply ensures_read_bind
  dsimp only
  split
  case h_4 => exact intern_lands ..
  all_goals exact ensures_bind_of_all fun _ after _ => intern_lands _ after

/-- A constant is in the store. -/
theorem mkVar_lands (name : String) (sort : TermSort) (s : Store) : (mkVar name sort).Lands s :=
  ensures_bind_of_all fun _ after _ => intern_lands _ after

/-- A fresh constant is in the store. -/
theorem mkFresh_lands (stem : String) (sort : TermSort) (s : Store) : (mkFresh stem sort).Lands s :=
  ensures_read_bind (ensures_bind_of_all fun _ after _ => mkVar_lands _ sort after)

/-- A universal quantification is in the store. -/
theorem mkForall_lands (vars : List Binder) (body : TermId) (s : Store) :
    (mkForall vars body).Lands s := ensures_bind_of_all fun _ after _ => intern_lands _ after

/-- An existential quantification is in the store. -/
theorem mkExists_lands (vars : List Binder) (body : TermId) (s : Store) :
    (mkExists vars body).Lands s := ensures_bind_of_all fun _ after _ => intern_lands _ after

/-- A conjunction is in the store. -/
theorem mkAnd_lands (inside : Bits.Inside s args) : (mkAnd args).Lands s := by
  unfold mkAnd
  split
  · exact s.node_trueId.1
  · exact inside _ (List.mem_singleton_self _)
  · exact mkApp_lands ..

/-- A disjunction is in the store. -/
theorem mkOr_lands (inside : Bits.Inside s args) : (mkOr args).Lands s := by
  unfold mkOr
  split
  · exact s.node_falseId.1
  · exact inside _ (List.mem_singleton_self _)
  · exact mkApp_lands ..

/-- A term with other arguments is in the store. -/
theorem rebuild_lands (inside : t < s.size) (args : List TermId) : (rebuild t args).Lands s := by
  unfold rebuild
  apply ensures_read_bind
  dsimp only
  split
  · exact ensures_pure inside
  · split
    · exact intern_lands ..
    · exact mkApp_lands ..

/-- Terms that are built one after the other. -/
theorem mapM_lands {α : Type} {work : α → Terms TermId} {members : List α}
    (each : ∀ x ∈ members, ∀ now, s.Extends now → (work x).Lands now) :
    (members.mapM work).LandsAll s := by
  have all : (members.mapM work).Ensures s fun bits after =>
      List.Forall₂ (fun _ b => b < after.size) members bits := by
    have lasting (x : α) (b : TermId) (before after : Store) (grown : before.Extends after)
        (inside : b < before.size) : b < after.size := grown.lt_size inside
    exact ensures_mapM lasting members each
  refine all.imp fun bits after _ related b member => ?_
  obtain ⟨_, _, inside⟩ := exists_of_forall₂ related.flip member
  exact inside

end Terms

section Circuits

open Terms

namespace Gate

/-- A negation is in the store. -/
theorem not_lands (inside : a < s.size) : (Gate.not a).Lands s := by
  unfold Gate.not
  split_ifs
  · exact ensures_pure s.node_falseId.1
  · exact ensures_pure s.node_trueId.1
  · apply ensures_read_bind
    split
    · next b view => exact ensures_pure (Store.lt_size_of_view inside view b (by simp))
    · exact mkApp_lands ..

/-- A conjunction is in the store. -/
theorem and_lands (first : a < s.size) (second : b < s.size) : (Gate.and a b).Lands s := by
  unfold Gate.and
  split_ifs
  · exact ensures_pure s.node_falseId.1
  · exact ensures_pure second
  · exact ensures_pure first
  · exact mkAnd_lands (by simp [Bits.Inside, first, second])

/-- A disjunction is in the store. -/
theorem or_lands (first : a < s.size) (second : b < s.size) : (Gate.or a b).Lands s := by
  unfold Gate.or
  split_ifs
  · exact ensures_pure s.node_trueId.1
  · exact ensures_pure second
  · exact ensures_pure first
  · exact mkOr_lands (by simp [Bits.Inside, first, second])

/-- A difference is in the store. -/
theorem xor_lands (first : a < s.size) (second : b < s.size) : (Gate.xor a b).Lands s := by
  unfold Gate.xor
  split_ifs
  · exact ensures_pure s.node_falseId.1
  · exact ensures_pure second
  · exact ensures_pure first
  · exact not_lands second
  · exact not_lands first
  · exact mkApp_lands ..

/-- An equality is in the store. -/
theorem iff_lands (first : a < s.size) (second : b < s.size) : (Gate.iff a b).Lands s :=
  ensures_bind (xor_lands first second) fun _ _ _ inside => not_lands inside

/-- A choice is in the store. -/
theorem mux_lands (c : TermId) (first : a < s.size) (second : b < s.size) :
    (Gate.mux c a b).Lands s := by
  unfold Gate.mux
  split_ifs
  · exact ensures_pure first
  · exact ensures_pure second
  · exact mkApp_lands ..

/-- A conjunction of any number of bits is in the store. -/
theorem all_lands (inside : Bits.Inside s as) : (Gate.all as).Lands s := by
  unfold Gate.all
  split
  · exact ensures_pure s.node_falseId.1
  · exact mkAnd_lands fun b member => inside b (List.mem_of_mem_filter member)

end Gate

namespace Circuit

/-- A gate at every position gives bits in the store. -/
theorem zipWith_lands {gate : TermId → TermId → Terms TermId} (first : Bits.Inside s as)
    (second : Bits.Inside s bs)
    (each : ∀ a b now, s.Extends now → a < now.size → b < now.size → (gate a b).Lands now) :
    (Circuit.zipWith gate as bs).LandsAll s := by
  apply mapM_lands
  rintro ⟨x, y⟩ member now grown
  obtain ⟨left, right⟩ := first.zip second _ member
  exact each x y now grown (grown.lt_size left) (grown.lt_size right)

/-- A negated vector is in the store. -/
theorem not_lands (inside : Bits.Inside s as) : (as.mapM Gate.not).LandsAll s :=
  Terms.mapM_lands fun b member _ grown => Gate.not_lands (grown.lt_size (inside b member))

/-- Sums of positions are in the store. -/
theorem ripple_lands {pairs : List (TermId × TermId)} {carry : TermId}
    (inside : ∀ p ∈ pairs, p.1 < s.size ∧ p.2 < s.size) (carried : carry < s.size) :
    (ripple pairs carry).LandsAll s := by
  induction pairs generalizing carry s with
  | nil => exact ensures_pure (List.forall_mem_nil _)
  | cons pair rest later =>
    obtain ⟨x, y⟩ := pair
    obtain ⟨⟨first, second⟩, others⟩ := List.forall_mem_cons.mp inside
    unfold ripple
    refine ensures_bind (Gate.xor_lands first second) fun half s₁ g₁ halved => ?_
    refine ensures_bind (Gate.xor_lands halved (g₁.lt_size carried)) fun sum s₂ g₂ summed => ?_
    have g := g₁.trans g₂
    refine ensures_bind (Gate.and_lands (g.lt_size first) (g.lt_size second)) fun both s₃ g₃ two => ?_
    have g := g.trans g₃
    refine ensures_bind (Gate.and_lands ((g₂.trans g₃).lt_size halved) (g.lt_size carried))
      fun passed s₄ g₄ one => ?_
    have g := g.trans g₄
    refine ensures_bind (Gate.or_lands (g₄.lt_size two) one) fun carry' s₅ g₅ carried' => ?_
    have g := g.trans g₅
    have others : ∀ p ∈ rest, p.1 < s₅.size ∧ p.2 < s₅.size := fun p member =>
      ⟨g.lt_size (others p member).1, g.lt_size (others p member).2⟩
    refine ensures_bind (later others carried') fun found last g₆ all => ?_
    have more := g₃.trans (g₄.trans (g₅.trans g₆))
    exact ensures_pure (List.forall_mem_cons.mpr ⟨more.lt_size summed, all⟩)

/-- A sum is in the store. -/
theorem add_lands (first : Bits.Inside s as) (second : Bits.Inside s bs) (carried : c < s.size) :
    (Circuit.add as bs c).LandsAll s := ripple_lands (first.zip second) carried

/-- A difference is in the store. -/
theorem sub_lands (first : Bits.Inside s as) (second : Bits.Inside s bs) :
    (Circuit.sub as bs).LandsAll s :=
  ensures_bind (not_lands second) fun _ after grown negated =>
    add_lands (first.mono grown) negated after.node_trueId.1

/-- A negative is in the store. -/
theorem neg_lands (inside : Bits.Inside s as) : (Circuit.neg as).LandsAll s :=
  sub_lands (Bits.inside_zeros s as) inside

/-- Twice a vector is in the store. -/
theorem inside_double (inside : Bits.Inside s as) : Bits.Inside s (double as) := by
  intro b member
  rcases List.mem_cons.mp (List.mem_of_mem_dropLast member) with rfl | member
  · exact s.node_falseId.1
  · exact inside b member

/-- A sum with multiples is in the store. -/
theorem multiples_lands {sum : Bits} (first : Bits.Inside s as) (second : Bits.Inside s bs)
    (start : Bits.Inside s sum) : (multiples as bs sum).LandsAll s := by
  induction bs generalizing as sum s with
  | nil => exact ensures_pure start
  | cons b rest later =>
    obtain ⟨here, others⟩ := List.forall_mem_cons.mp second
    unfold multiples
    split
    · exact later (inside_double first) others start
    · have summands : (as.mapM (Gate.and b)).LandsAll s := mapM_lands fun a member _ grown =>
        Gate.and_lands (grown.lt_size here) (grown.lt_size (first a member))
      refine ensures_bind summands fun summand s₁ g₁ found => ?_
      refine ensures_bind (add_lands (start.mono g₁) found s₁.node_falseId.1)
        fun total s₂ g₂ summed => ?_
      have g := g₁.trans g₂
      exact later (inside_double (first.mono g)) (Bits.Inside.mono others g) summed

/-- A product is in the store. -/
theorem mul_lands (first : Bits.Inside s as) (second : Bits.Inside s bs) :
    (Circuit.mul as bs).LandsAll s := multiples_lands first second (Bits.inside_zeros s as)

/-- The decision of a comparison is in the store. -/
theorem lessFrom_lands {pairs : List (TermId × TermId)} {less : TermId}
    (inside : ∀ p ∈ pairs, p.1 < s.size ∧ p.2 < s.size) (start : less < s.size) :
    (lessFrom pairs less).Lands s := by
  induction pairs generalizing less s with
  | nil => exact ensures_pure start
  | cons pair rest later =>
    obtain ⟨x, y⟩ := pair
    obtain ⟨⟨first, second⟩, others⟩ := List.forall_mem_cons.mp inside
    unfold lessFrom
    refine ensures_bind (Gate.not_lands first) fun negated s₁ g₁ not => ?_
    refine ensures_bind (Gate.and_lands not (g₁.lt_size second)) fun here s₂ g₂ decided => ?_
    have g := g₁.trans g₂
    refine ensures_bind (Gate.iff_lands (g.lt_size first) (g.lt_size second)) fun same s₃ g₃ eq => ?_
    have g := g.trans g₃
    refine ensures_bind (Gate.and_lands eq (g.lt_size start)) fun below s₄ g₄ passed => ?_
    have g := g.trans g₄
    refine ensures_bind (Gate.or_lands ((g₃.trans g₄).lt_size decided) passed)
      fun less' s₅ g₅ next => ?_
    have g := g.trans g₅
    exact later (fun p member => ⟨g.lt_size (others p member).1, g.lt_size (others p member).2⟩) next

/-- An unsigned comparison is in the store. -/
theorem ult_lands (first : Bits.Inside s as) (second : Bits.Inside s bs) :
    (Circuit.ult as bs).Lands s := lessFrom_lands (first.zip second) s.node_falseId.1

/-- A vector with its sign negated is in the store. -/
theorem flipSign_lands (inside : Bits.Inside s as) : (flipSign as).LandsAll s := by
  induction as generalizing s with
  | nil => exact ensures_pure (List.forall_mem_nil _)
  | cons bit rest later =>
    obtain ⟨here, others⟩ := List.forall_mem_cons.mp inside
    cases rest with
    | nil =>
      refine ensures_bind (Gate.not_lands here) fun sign after _ found => ensures_pure ?_
      exact List.forall_mem_cons.mpr ⟨found, List.forall_mem_nil _⟩
    | cons next rest =>
      unfold flipSign
      refine ensures_bind (later others) fun found after grown all => ensures_pure ?_
      exact List.forall_mem_cons.mpr ⟨grown.lt_size here, all⟩

/-- A signed comparison is in the store. -/
theorem slt_lands (first : Bits.Inside s as) (second : Bits.Inside s bs) :
    (Circuit.slt as bs).Lands s := by
  refine ensures_bind (flipSign_lands first) fun as' s₁ g₁ left => ?_
  refine ensures_bind (flipSign_lands (second.mono g₁)) fun bs' s₂ g₂ right => ?_
  exact ult_lands (Bits.Inside.mono left g₂) right

/-- An equality of vectors is in the store. -/
theorem eq_lands (first : Bits.Inside s as) (second : Bits.Inside s bs) :
    (Circuit.eq as bs).Lands s :=
  ensures_bind (zipWith_lands first second fun _ _ _ _ => Gate.iff_lands)
    fun _ _ _ found => Gate.all_lands found

variable {vectors : List Bits}

/-- The differences of vectors are in the store. -/
theorem pairwise_lands (inside : ∀ bits ∈ vectors, Bits.Inside s bits) :
    (pairwise vectors).LandsAll s := by
  induction vectors generalizing s with
  | nil => exact ensures_pure (List.forall_mem_nil _)
  | cons as rest later =>
    obtain ⟨here, others⟩ := List.forall_mem_cons.mp inside
    have first : (differences as rest).LandsAll s := mapM_lands fun bs member _ grown =>
      ensures_bind (eq_lands (Bits.Inside.mono here grown) (Bits.Inside.mono (others bs member) grown))
        fun _ _ _ found => Gate.not_lands found
    unfold pairwise
    refine ensures_bind first fun found s₁ g₁ known => ?_
    refine ensures_bind (later fun bs member => Bits.Inside.mono (others bs member) g₁)
      fun more s₂ g₂ all => ?_
    exact ensures_pure (Bits.Inside.append (Bits.Inside.mono known g₂) all)

/-- A pairwise difference is in the store. -/
theorem distinct_lands (inside : ∀ bits ∈ vectors, Bits.Inside s bits) :
    (Circuit.distinct vectors).Lands s :=
  ensures_bind (pairwise_lands inside) fun _ _ _ found => Gate.all_lands found

/-- A concatenation over a low part is in the store. -/
theorem concatOver_lands {on off low : TermId} (one : on < s.size) (zero : off < s.size)
    (start : low < s.size) : (concatOver on off low as).Lands s := by
  induction as generalizing low s with
  | nil => exact ensures_pure start
  | cons bit rest later =>
    unfold concatOver
    refine ensures_bind (Gate.mux_lands bit one zero) fun high s₁ g₁ _ => ?_
    refine ensures_bind (mkApp_lands ..) fun low' s₂ g₂ next => ?_
    exact later ((g₁.trans g₂).lt_size one) ((g₁.trans g₂).lt_size zero) next

/-- What ties a term to its bits is an equation. -/
theorem link?_equation (inside : t < s.size) (bits : Bits) :
    (link? t bits).Ensures s fun found after => ∀ e, found = some e →
      e < after.size ∧ ∃ value, after.view e = (.eq, [t, value]) := by
  unfold link?
  refine ensures_bind (mkApp_lands ..) fun on s₁ g₁ one => ?_
  refine ensures_bind (mkApp_lands ..) fun off s₂ g₂ zero => ?_
  split
  · exact ensures_pure (by simp)
  · next bit rest =>
    refine ensures_bind (Gate.mux_lands bit (g₂.lt_size one) zero) fun low s₃ g₃ start => ?_
    refine ensures_bind (concatOver_lands ((g₂.trans g₃).lt_size one) (g₃.lt_size zero) start)
      fun value s₄ g₄ found => ?_
    have there := (g₁.trans (g₂.trans (g₃.trans g₄))).lt_size inside
    refine ensures_bind (mkApp_node (by simp [there, found])) fun e after _ known => ensures_pure ?_
    rintro _ ⟨⟩
    exact ⟨known.1, value, by rw [Store.view, known.2]⟩

end Circuit

end Circuits

/-- What is known in a scope is in the store. -/
structure BlastScope.Inside (s : Store) (scope : BlastScope) : Prop where
  /-- Bits of bound variables. -/
  bound : ∀ (t : TermId) (bits : Bits), scope.bound[t]? = some bits → Bits.Inside s bits
  /-- Bits of terms. -/
  terms : ∀ (t : TermId) (bits : Bits), scope.terms[t]? = some bits → Bits.Inside s bits
  /-- Encodings of formulas. -/
  formulas : ∀ (f encoding : TermId), scope.formulas[f]? = some encoding → encoding < s.size

namespace BlastScope

variable {scope : BlastScope} {bound : Std.HashMap TermId Bits}

/-- What is known in a scope stays in the store. -/
theorem Inside.mono (known : scope.Inside s) (grown : s.Extends after) : scope.Inside after where
  bound t bits found := (known.bound t bits found).mono grown
  terms t bits found := (known.terms t bits found).mono grown
  formulas f encoding found := grown.lt_size (known.formulas f encoding found)

/-- A scope in which only variables are bound. -/
theorem inside_of_bound (bits : ∀ (t : TermId) (bits : Bits), bound[t]? = some bits → Bits.Inside s bits) :
    BlastScope.Inside s { bound } where
  bound := bits
  terms _ _ found := by simp at found
  formulas _ _ found := by simp at found

/-- The bits of one more term. -/
theorem Inside.insertTerm (known : scope.Inside s) (t : TermId) (inside : Bits.Inside s as) :
    BlastScope.Inside s { scope with terms := scope.terms.insert t as } where
  bound := known.bound
  terms u bits found := by
    obtain ⟨_, rfl⟩ | old := Blaster.found_insert found
    · exact inside
    · exact known.terms u bits old
  formulas := known.formulas

/-- The encoding of one more formula. -/
theorem Inside.insertFormula (known : scope.Inside s) (f : TermId) (inside : t < s.size) :
    BlastScope.Inside s { scope with formulas := scope.formulas.insert f t } where
  bound := known.bound
  terms := known.terms
  formulas g encoding found := by
    obtain ⟨_, rfl⟩ | old := Blaster.found_insert found
    · exact inside
    · exact known.formulas g encoding old

end BlastScope

/-- A term and its bits are in the store. -/
abbrev BlastWork.PairInside (s : Store) (c : TermId × Bits) : Prop :=
  c.1 < s.size ∧ Bits.Inside s c.2

/-- What a working state knows is in the store. -/
structure BlastWork.Inside (s : Store) (w : BlastWork) : Prop where
  /-- Constants and their bits. -/
  constants : ∀ c ∈ w.constants, BlastWork.PairInside s c
  /-- Applications and their bits. -/
  applications : ∀ c ∈ w.applications, BlastWork.PairInside s c
  /-- Outside of all quantifiers. -/
  outer : w.outer.Inside s
  /-- Inside the quantifiers around. -/
  inner : ∀ scope ∈ w.inner, scope.Inside s

namespace BlastWork

variable {w w' : BlastWork}

/-- A pair stays in the store. -/
theorem PairInside.mono {c : TermId × Bits} (known : PairInside s c) (grown : s.Extends after) :
    PairInside after c := ⟨grown.lt_size known.1, known.2.mono grown⟩

/-- What a working state knows stays in the store. -/
theorem Inside.mono (known : w.Inside s) (grown : s.Extends after) : w.Inside after where
  constants c member := PairInside.mono (known.constants c member) grown
  applications c member := PairInside.mono (known.applications c member) grown
  outer := known.outer.mono grown
  inner scope member := (known.inner scope member).mono grown

/-- The working state in which nothing is known. -/
theorem inside_empty (s : Store) : ({} : BlastWork).Inside s where
  constants c member := by cases Array.not_mem_empty c member
  applications c member := by cases Array.not_mem_empty c member
  outer := BlastScope.inside_of_bound (by simp)
  inner _ member := by cases member

/-- What is known in the innermost scope is in the store. -/
theorem Inside.scope (known : w.Inside s) : w.scope.Inside s := by
  unfold BlastWork.scope
  cases shape : w.inner with
  | nil => exact known.outer
  | cons scope rest => exact known.inner scope (by rw [shape]; exact List.mem_cons_self ..)

/-- Changing the innermost scope. -/
theorem Inside.modifyScope {change : BlastScope → BlastScope} (known : w.Inside s)
    (each : ∀ scope, scope.Inside s → (change scope).Inside s) :
    (w.modifyScope change).Inside s := by
  obtain ⟨constants, applications, kept, support, outer, inner, steps⟩ := w
  cases inner with
  | nil => exact ⟨known.constants, known.applications, each outer known.outer, known.inner⟩
  | cons scope rest =>
    obtain ⟨here, others⟩ := List.forall_mem_cons.mp known.inner
    exact ⟨known.constants, known.applications, known.outer,
      List.forall_mem_cons.mpr ⟨each scope here, others⟩⟩

/-- The bits of a bound variable are in the store. -/
theorem Inside.boundBits? {bits : Bits} (known : w.Inside s) (found : w.boundBits? t = some bits) :
    Bits.Inside s bits := by
  obtain ⟨scope, member, there⟩ := List.exists_of_findSome?_eq_some found
  exact (known.inner scope member).bound t bits there

/-- Keeping constants adds nothing. -/
theorem Inside.keepConstants (known : w.Inside s) (terms : List TermId) :
    (terms.foldl keepConstant w).Inside s := by
  induction terms generalizing w with
  | nil => exact known
  | cons c rest tail =>
    apply tail
    unfold keepConstant
    split
    · refine ⟨known.constants, known.applications, known.outer, fun scope member => ?_⟩
      obtain ⟨old, among, rfl⟩ := List.mem_map.mp member
      have old := known.inner old among
      split
      · exact ⟨old.bound, old.terms, old.formulas⟩
      · exact old
    · exact ⟨known.constants, known.applications, known.outer, known.inner⟩

end BlastWork

namespace Blaster

open Attempt BlastWork

variable {b : Blaster} {f body : TermId} {context : Context} {depth : ℕ}

/-- What an attempt finds is in the store, and so is what is known after it. -/
def Presents {α : Type} (here : Store → α → Prop) (work : Attempt Blaster α) (b : Blaster)
    (s : Store) : Prop :=
  work.Ensures b s (fun found b' after => b'.work.Inside after ∧ here after found)
    fun _ _ _ => True

/-- A term that an attempt finds is in the store. -/
abbrev PresentsTerm (work : Attempt Blaster TermId) (b : Blaster) (s : Store) : Prop :=
  Presents (fun s t => t < s.size) work b s

/-- The bits that an attempt finds are in the store. -/
abbrev PresentsBits (work : Attempt Blaster Bits) (b : Blaster) (s : Store) : Prop :=
  Presents Bits.Inside work b s

/-- Building a term. -/
theorem build_term {work : Terms TermId} (known : b.work.Inside s) (lands : work.Lands s) :
    PresentsTerm (Attempt.build work) b s := by
  have built : (Attempt.build work : Attempt Blaster TermId).Ensures b s
      (fun t b' after => b' = b ∧ t < after.size) fun _ _ _ => True := ensures_build lands
  apply built.imp
  · rintro t b' after grown ⟨rfl, inside⟩
    exact ⟨known.mono grown, inside⟩
  · exact fun _ _ _ _ _ => trivial

/-- Building bits. -/
theorem build_bits {work : Terms Bits} (known : b.work.Inside s) (lands : work.LandsAll s) :
    PresentsBits (Attempt.build work) b s := by
  have built : (Attempt.build work : Attempt Blaster Bits).Ensures b s
      (fun bits b' after => b' = b ∧ Bits.Inside after bits) fun _ _ _ => True := ensures_build lands
  apply built.imp
  · rintro bits b' after grown ⟨rfl, inside⟩
    exact ⟨known.mono grown, inside⟩
  · exact fun _ _ _ _ _ => trivial

/-- The bits of a constant are in the store. -/
theorem constantBits_present (known : b.work.Inside s) (inside : t < s.size) :
    PresentsBits (constantBits t) b s := by
  unfold constantBits
  refine ensures_get_bind ?_
  dsimp only
  split
  · next bits found =>
    refine ensures_pure ⟨known, ?_⟩
    rcases Option.or_eq_some_iff.mp found with bound | ⟨_, found⟩
    · exact known.boundBits? bound
    · obtain ⟨c, there, rfl⟩ := Option.map_eq_some_iff.mp found
      exact (known.constants c (Array.mem_of_find?_eq_some there)).2
  · refine ensures_read_bind ?_
    split
    · next name width _ _ =>
      have made : ((bitNames name width).mapM fun n => Terms.mkVar n .bool).LandsAll s :=
        Terms.mapM_lands fun n _ now _ => Terms.mkVar_lands n .bool now
      refine ensures_bind (build_bits known made) ?_
      rintro bits ⟨config, stats, work⟩ after grown ⟨known, bitsInside⟩
      refine ensures_modify_bind (ensures_pure ⟨?_, bitsInside⟩)
      refine ⟨fun c member => ?_, known.applications, known.outer, known.inner⟩
      rcases Array.mem_push.mp member with old | rfl
      · exact known.constants c old
      · exact ⟨grown.lt_size inside, bitsInside⟩
    · exact ensures_throw trivial

/-- The bits of an application are in the store. -/
theorem applicationBits_present (known : b.work.Inside s) (inside : t < s.size) :
    PresentsBits (applicationBits t) b s := by
  unfold applicationBits
  refine ensures_get_bind ?_
  split
  · next u bits found =>
    exact ensures_pure ⟨known, (known.applications _ (Array.mem_of_find?_eq_some found)).2⟩
  · refine ensures_read_bind ?_
    split
    · next width _ =>
      have made : ((List.range width).mapM fun _ => Terms.mkFresh "bv" .bool).LandsAll s :=
        Terms.mapM_lands fun _ _ now _ => Terms.mkFresh_lands "bv" .bool now
      refine ensures_bind (build_bits known made) ?_
      rintro bits ⟨config, stats, work⟩ after grown ⟨known, bitsInside⟩
      refine ensures_modify_bind (ensures_bind keep_ensures ?_)
      rintro _ ⟨config, stats, kept⟩ after _ ⟨rfl, same⟩
      have known : kept.Inside after := by
        rw [show kept = work.keep after t from same]
        exact known.keepConstants _
      refine ensures_modify_bind (ensures_pure ⟨?_, bitsInside⟩)
      refine ⟨known.constants, fun c member => ?_, known.outer, known.inner⟩
      rcases Array.mem_push.mp member with old | rfl
      · exact known.applications c old
      · exact ⟨grown.lt_size inside, bitsInside⟩
    · exact ensures_throw trivial

/-- Bits are remembered. -/
theorem rememberTerm_present (known : b.work.Inside s) (inside : Bits.Inside s as) :
    PresentsBits (do rememberTerm t as; return as) b s :=
  ensures_modify_bind (ensures_pure
    ⟨known.modifyScope fun _ scope => scope.insertTerm t inside, inside⟩)

/-- An encoding is remembered. -/
theorem rememberFormula_present (known : b.work.Inside s) (inside : t < s.size) :
    PresentsTerm (do rememberFormula f t; return t) b s :=
  ensures_modify_bind (ensures_pure
    ⟨known.modifyScope fun _ scope => scope.insertFormula f inside, inside⟩)

/-- What stays as it is stays in the store. -/
theorem keep_present (known : b.work.Inside s) (inside : f < s.size) :
    PresentsTerm (do keep f; return f) b s := by
  refine ensures_bind keep_ensures ?_
  rintro _ b' after _ ⟨rfl, same⟩
  refine ensures_pure ⟨?_, inside⟩
  rw [same]
  exact known.keepConstants _

/-- An atom that stays as it is stays in the store. -/
theorem keepAtom_present (known : b.work.Inside s) (inside : f < s.size) :
    PresentsTerm (keepAtom f) b s :=
  ensures_modify_bind (keep_present (b := { b with stats := _ }) known inside)

/-- The bits of bound variables are in the store. -/
theorem bindBits_inside (vars : List Binder) : (bindBits vars).Ensures s fun found after =>
    ∀ (t : TermId) (bits : Bits), found.2[t]? = some bits → Bits.Inside after bits := by
  induction vars generalizing s with
  | nil => exact Terms.ensures_pure (by simp)
  | cons v rest later =>
    unfold bindBits
    split
    · next width _ =>
      refine Terms.ensures_bind_of_all fun t s₁ _ => ?_
      have made : ((bitNames v.name width).mapM fun n => Terms.mkVar n .bool).LandsAll s₁ :=
        Terms.mapM_lands fun n _ now _ => Terms.mkVar_lands n .bool now
      refine Terms.ensures_bind made fun bits s₂ _ inside => ?_
      refine Terms.ensures_bind later fun found s₃ grown known => Terms.ensures_pure ?_
      intro u bits' there
      obtain ⟨_, rfl⟩ | old := found_insert there
      · exact Bits.Inside.mono inside grown
      · exact known u bits' old
    · exact Terms.ensures_bind later fun found s₃ _ known => Terms.ensures_pure known

/-- The encoding of a quantifier is in the store. -/
theorem quantifier_present {vars : List Binder} {body : Attempt Blaster TermId}
    {make : List Binder → TermId → Terms TermId} (known : b.work.Inside s) (inside : f < s.size)
    (encodes : ∀ b' now, s.Extends now → b'.work.Inside now → PresentsTerm body b' now)
    (makes : ∀ binders t now, (make binders t).Lands now) :
    PresentsTerm (quantifier f vars body make) b s := by
  unfold quantifier
  refine ensures_get_bind ?_
  split_ifs
  · refine ensures_build_bind (bindBits_inside vars) ?_
    rintro ⟨binders, bound⟩ s₁ g₁ bits
    refine ensures_modify_bind ?_
    obtain ⟨config, stats, work⟩ := b
    have known : work.Inside s₁ := known.mono g₁
    have entered : BlastWork.Inside s₁ { work with inner := { bound } :: work.inner } :=
      ⟨known.constants, known.applications, known.outer,
        List.forall_mem_cons.mpr ⟨BlastScope.inside_of_bound bits, known.inner⟩⟩
    refine ensures_bind (encodes ⟨config, stats, _⟩ s₁ g₁ entered) ?_
    rintro encoding ⟨config, stats, inner⟩ s₂ g₂ ⟨known, there⟩
    have outside : leave.Ensures ⟨config, stats, inner⟩ s₂ (fun _ b' after => after = s₂ ∧
        b'.work = { inner with inner := inner.inner.drop 1 }) fun _ _ _ => True := ⟨rfl, rfl⟩
    refine ensures_bind outside ?_
    rintro escaped b' s₂ _ ⟨rfl, same⟩
    have known : b'.work.Inside s₂ := by
      rw [same]
      exact ⟨known.constants, known.applications, known.outer,
        fun scope member => known.inner scope (List.mem_of_mem_drop member)⟩
    split_ifs
    · exact keep_present known ((g₁.trans g₂).lt_size inside)
    · exact build_term known (makes binders encoding s₂)
  · exact keepAtom_present known inside

/-- Down to a depth, the bits of terms are in the store. -/
def TermsPresent (context : Context) (depth : ℕ) : Prop :=
  ∀ (t : TermId) (b : Blaster) (s : Store), t < s.size → b.work.Inside s →
    PresentsBits (bits context depth t) b s

/-- Down to a depth, the encodings of formulas are in the store. -/
def FormulasPresent (context : Context) (depth : ℕ) : Prop :=
  ∀ (f : TermId) (b : Blaster) (s : Store), f < s.size → b.work.Inside s →
    PresentsTerm (formula context depth f) b s

/-- A circuit over the bits of two arguments. -/
theorem two_present {circuit : Bits → Bits → Terms Bits} (terms : TermsPresent context depth)
    (known : b.work.Inside s) (first : a < s.size) (second : c < s.size)
    (lands : ∀ as cs now, Bits.Inside now as → Bits.Inside now cs → (circuit as cs).LandsAll now) :
    PresentsBits (do
      let x ← bits context depth a
      let y ← bits context depth c
      Attempt.build (circuit x y)) b s := by
  refine ensures_bind (terms a b s first known) ?_
  rintro as b₁ s₁ g₁ ⟨known, left⟩
  refine ensures_bind (terms c b₁ s₁ (g₁.lt_size second) known) ?_
  rintro cs b₂ s₂ g₂ ⟨known, right⟩
  exact build_bits known (lands as cs s₂ (Bits.Inside.mono left g₂) right)

/-- A circuit over the bits of an argument. -/
theorem one_present {circuit : Bits → Terms Bits} (terms : TermsPresent context depth)
    (known : b.work.Inside s) (inside : a < s.size)
    (lands : ∀ as now, Bits.Inside now as → (circuit as).LandsAll now) :
    PresentsBits (do
      let x ← bits context depth a
      Attempt.build (circuit x)) b s := by
  refine ensures_bind (terms a b s inside known) ?_
  rintro as b₁ s₁ _ ⟨known, found⟩
  exact build_bits known (lands as s₁ found)

/-- One level more of bits. -/
theorem bits_present_succ (terms : TermsPresent context depth)
    (formulas : FormulasPresent context depth) : TermsPresent context (depth + 1) := by
  intro t b s inside known
  rw [bits]
  refine ensures_get_bind ?_
  split
  · next out found => exact ensures_pure ⟨known, known.scope.terms t out found⟩
  refine ensures_bind (step_ensures.imp (fun _ _ _ _ result => result) fun _ _ _ _ _ => trivial) ?_
  rintro _ b₁ s _ ⟨rfl, rfl⟩
  have known : BlastWork.Inside s { b.work with steps := b.work.steps + 1 } :=
    ⟨known.constants, known.applications, known.outer, known.inner⟩
  refine ensures_read_bind ?_
  dsimp only
  have finish : ∀ (out : Bits) (b' : Blaster) (after : Store), s.Extends after →
      b'.work.Inside after ∧ Bits.Inside after out →
      PresentsBits (do rememberTerm t out; return out) b' after :=
    fun _ _ _ _ both => rememberTerm_present both.1 both.2
  have within {op : Op} {args : List TermId} (view : s.view t = (op, args)) :
      ∀ a ∈ args, a < s.size := Store.lt_size_of_view inside view
  split
  · next value width args view =>
    exact ensures_pure_bind (finish _ _ s (.refl s) ⟨known, Bits.inside_ofNat s value width⟩)
  · exact ensures_bind (constantBits_present (b := { b with work := _ }) known inside) finish
  · next a view =>
    rw [← bind_assoc]
    exact ensures_bind (one_present (b := { b with work := _ }) terms known (within view a (by simp))
      fun _ _ => Circuit.not_lands) finish
  · next a c view =>
    exact ensures_bind (two_present (b := { b with work := _ }) terms known (within view a (by simp))
      (within view c (by simp)) fun _ _ _ left right =>
        Circuit.zipWith_lands left right fun _ _ _ _ => Gate.and_lands) finish
  · next a c view =>
    exact ensures_bind (two_present (b := { b with work := _ }) terms known (within view a (by simp))
      (within view c (by simp)) fun _ _ _ left right =>
        Circuit.zipWith_lands left right fun _ _ _ _ => Gate.or_lands) finish
  · next a c view =>
    exact ensures_bind (two_present (b := { b with work := _ }) terms known (within view a (by simp))
      (within view c (by simp)) fun _ _ _ left right =>
        Circuit.zipWith_lands left right fun _ _ _ _ => Gate.xor_lands) finish
  · next a view =>
    rw [← bind_assoc]
    exact ensures_bind (one_present (b := { b with work := _ }) terms known (within view a (by simp))
      fun _ _ => Circuit.neg_lands) finish
  · next a c view =>
    exact ensures_bind (two_present (b := { b with work := _ }) terms known (within view a (by simp))
      (within view c (by simp)) fun _ _ now left right =>
        Circuit.add_lands left right now.node_falseId.1) finish
  · next a c view =>
    exact ensures_bind (two_present (b := { b with work := _ }) terms known (within view a (by simp))
      (within view c (by simp)) fun _ _ _ => Circuit.sub_lands) finish
  · next a c view =>
    exact ensures_bind (two_present (b := { b with work := _ }) terms known (within view a (by simp))
      (within view c (by simp)) fun _ _ _ => Circuit.mul_lands) finish
  · next high low view =>
    exact ensures_bind (two_present (b := { b with work := _ }) terms known
      (within view low (by simp)) (within view high (by simp)) fun _ _ _ left right =>
        Terms.ensures_pure (left.append right)) finish
  · next high low a view =>
    refine ensures_bind (terms a _ s (within view a (by simp)) known) ?_
    rintro as b₁ s₁ g₁ ⟨known, found⟩
    split_ifs
    · refine ensures_pure_bind (finish _ _ s₁ g₁ ⟨known, fun x member => found x ?_⟩)
      exact List.mem_of_mem_drop (List.mem_of_mem_take member)
    · exact ensures_throw_bind trivial
  · next x a c view =>
    refine ensures_bind (formulas x _ s (within view x (by simp)) known) ?_
    rintro condition b₁ s₁ g₁ ⟨known, _⟩
    refine ensures_bind (two_present terms known (g₁.lt_size (within view a (by simp)))
      (g₁.lt_size (within view c (by simp))) fun _ _ _ left right =>
        Circuit.zipWith_lands left right fun _ _ _ _ => Gate.mux_lands condition) ?_
    exact fun out b' after g₂ both => finish out b' after (g₁.trans g₂) both
  · exact ensures_bind (applicationBits_present (b := { b with work := _ }) known inside) finish
  · exact ensures_throw_bind trivial

/-- The circuit of an atom gives a term of the store. -/
theorem atomCircuit?_lands {circuit : AtomCircuit} {vectors : List Bits}
    (found : atomCircuit? s f = some circuit) (inside : ∀ bits ∈ vectors, Bits.Inside after bits) :
    (circuit vectors).Lands after := by
  have two {compare : Bits → Bits → Terms TermId}
      (lands : ∀ as bs, Bits.Inside after as → Bits.Inside after bs → (compare as bs).Lands after) :
      (onTwo compare vectors).Lands after := by
    unfold onTwo
    split
    · exact lands _ _ (inside _ (by simp)) (inside _ (by simp))
    · exact after.node_falseId.1
  have converse {compare : Bits → Bits → Terms TermId}
      (lands : ∀ as bs, Bits.Inside after as → Bits.Inside after bs → (compare as bs).Lands after) :
      (notConverse compare vectors).Lands after := two fun as bs left right =>
    Terms.ensures_bind (lands bs as right left) fun _ _ _ there => Gate.not_lands there
  unfold atomCircuit? at found
  dsimp only at found
  split at found
  · split_ifs at found
    obtain rfl := Option.some.inj found
    exact two fun _ _ => Circuit.eq_lands
  · split_ifs at found
    obtain rfl := Option.some.inj found
    exact Circuit.distinct_lands inside
  · obtain rfl := Option.some.inj found
    exact two fun _ _ => Circuit.ult_lands
  · obtain rfl := Option.some.inj found
    exact converse fun _ _ => Circuit.ult_lands
  · obtain rfl := Option.some.inj found
    exact two fun _ _ => Circuit.slt_lands
  · obtain rfl := Option.some.inj found
    exact converse fun _ _ => Circuit.slt_lands
  · cases found

/-- Attempts on terms of the store, one after the other. -/
theorem mapM_present {α : Type} {here : Store → α → Prop} {visit : TermId → Attempt Blaster α}
    {terms : List TermId} (lasting : ∀ x before after, Store.Extends before after → here before x →
      here after x) (inside : ∀ a ∈ terms, a < s.size) (known : b.work.Inside s)
    (each : ∀ a b' now, a < now.size → b'.work.Inside now → Presents here (visit a) b' now) :
    Presents (fun now found => ∀ x ∈ found, here now x) (terms.mapM visit) b s := by
  induction terms generalizing b s with
  | nil => exact ensures_pure ⟨known, List.forall_mem_nil _⟩
  | cons a rest later =>
    obtain ⟨first, others⟩ := List.forall_mem_cons.mp inside
    rw [List.mapM_cons]
    refine ensures_bind (each a b s first known) ?_
    rintro x b₁ s₁ g₁ ⟨known, found⟩
    refine ensures_bind (later (g₁.all_lt_size others) known) ?_
    rintro all b₂ s₂ g₂ ⟨known, more⟩
    exact ensures_pure ⟨known, List.forall_mem_cons.mpr ⟨lasting x s₁ s₂ g₂ found, more⟩⟩

/-- One level more of formulas. -/
theorem formula_present_succ (terms : TermsPresent context depth)
    (formulas : FormulasPresent context depth) : FormulasPresent context (depth + 1) := by
  intro f b s inside known
  rw [formula]
  refine ensures_get_bind ?_
  split
  · next encoding found => exact ensures_pure ⟨known, known.scope.formulas f encoding found⟩
  refine ensures_bind (step_ensures.imp (fun _ _ _ _ result => result) fun _ _ _ _ _ => trivial) ?_
  rintro _ b₁ s _ ⟨rfl, rfl⟩
  have known : BlastWork.Inside s { b.work with steps := b.work.steps + 1 } :=
    ⟨known.constants, known.applications, known.outer, known.inner⟩
  refine ensures_read_bind ?_
  dsimp only
  have finish : ∀ (encoding : TermId) (b' : Blaster) (after : Store), s.Extends after →
      b'.work.Inside after ∧ encoding < after.size →
      PresentsTerm (do rememberFormula f encoding; return encoding) b' after :=
    fun _ _ _ _ both => rememberFormula_present both.1 both.2
  have arguments : ∀ a ∈ s.args f, a < s.size := fun a member =>
    (Store.lt_of_mem_args member).trans inside
  split_ifs
  · have lasting (x : TermId) (before after : Store) (grown : before.Extends after)
        (there : x < before.size) : x < after.size := grown.lt_size there
    refine ensures_bind (mapM_present (b := { b with work := _ }) lasting arguments known formulas) ?_
    rintro args b₁ s₁ g₁ ⟨known, _⟩
    refine ensures_bind (build_term known (Terms.rebuild_lands (g₁.lt_size inside) args)) ?_
    exact fun u b₂ s₂ g₂ both => finish u b₂ s₂ (g₁.trans g₂) both
  · split
    · next circuit op args found view =>
      have judged : (supportsAll args).Ensures { b with work := { b.work with steps := b.work.steps + 1 } } s
          (fun _ b' after => after = s ∧ b'.work.Inside s) fun _ _ _ => True :=
        ⟨rfl, known.constants, known.applications, known.outer, known.inner⟩
      refine ensures_bind judged ?_
      rintro supported b₁ s _ ⟨rfl, known⟩
      split_ifs
      · have lasting (x : Bits) (before after : Store) (grown : before.Extends after)
            (there : Bits.Inside before x) : Bits.Inside after x := there.mono grown
        refine ensures_bind
          (mapM_present lasting (Store.lt_size_of_view inside view) known terms) ?_
        rintro vectors b₂ s₂ g₂ ⟨known, all⟩
        refine ensures_modify_bind ?_
        refine ensures_bind (build_term (b := { b₂ with stats := _ }) known
          (atomCircuit?_lands found all)) ?_
        exact fun u b₃ s₃ g₃ both => finish u b₃ s₃ (g₂.trans g₃) both
      · exact ensures_bind (keepAtom_present known inside) finish
    · next vars body _ view =>
      refine ensures_bind (quantifier_present (b := { b with work := _ }) known inside
        (fun b' now grown known => formulas body b' now
          (grown.lt_size (Store.lt_size_of_view inside view body (by simp))) known)
        Terms.mkForall_lands) finish
    · next vars body _ view =>
      refine ensures_bind (quantifier_present (b := { b with work := _ }) known inside
        (fun b' now grown known => formulas body b' now
          (grown.lt_size (Store.lt_size_of_view inside view body (by simp))) known)
        Terms.mkExists_lands) finish
    · refine ensures_bind keep_ensures ?_
      rintro _ b' s _ ⟨rfl, same⟩
      refine ensures_pure_bind (finish f b' s (.refl s) ⟨?_, inside⟩)
      rw [same]
      exact known.keepConstants _

/-- Bits and encodings are in the store. -/
theorem encodings_present (context : Context) (depth : ℕ) :
    TermsPresent context depth ∧ FormulasPresent context depth := by
  induction depth with
  | zero =>
    constructor
    · intro t b s _ _
      rw [bits]
      exact ensures_throw trivial
    · intro f b s _ _
      rw [formula]
      exact ensures_throw trivial
  | succ depth both =>
    exact ⟨bits_present_succ both.1 both.2, formula_present_succ both.1 both.2⟩

end Blaster

end Stratagem
