import Stratagem.Proofs.BitBlast.Meaning
import Stratagem.Proofs.Term.Traversal

/-!
# Correct encodings

What it means that a bit-blaster has encoded a term correctly, and which states of a bit-blaster
know only correct encodings: the encoding has the value of the term in every assignment in which
bit-vector constants have the values of their bits. The constants that occur in encodings are
followed as well: boolean constants, the bits of constants that were replaced, and bit-vector
constants of atoms that were kept. One lemma for each operation says that its circuit over correct
encodings is a correct encoding.
-/
namespace Stratagem

open BitAssignment (ofBits)

namespace Store

variable {s : Store} {K : Constants} {t : TermId}

/-- A well-sorted term has no quantifiers, and its constants have no arguments. -/
theorem BitSorted.plain (sorted : s.BitSorted K t) : s.Plain t := by
  intro u occurs
  induction occurs with
  | here =>
    have fits := sorted.fits
    revert fits
    unfold BitFits
    split <;> intro fits <;> simp_all [Op.binders?]
  | there member _ plain => exact plain (sorted.of_mem_args member)

/-- What occurs in a term is well-sorted over the constants that occur in the term. -/
theorem BitSorted.over_occurring {u : TermId} (sorted : s.BitSorted K u) (occurs : s.Occurs u t) :
    s.BitSorted (fun name sort => K name sort ∧ (sort = .bool ∨ ∃ w, sort = .bitVec w) ∧
      ∃ c, s.Occurs c t ∧ s.node c = ⟨.var name, [], sort⟩) u := by
  induction sorted with
  | @intro u inside fits args smaller =>
    apply BitSorted.intro inside _ fun a member => smaller a member (occurs.arg member)
    have node : s.node u = ⟨s.op u, s.args u, s.sortOf u⟩ := rfl
    revert fits node
    unfold BitFits
    split <;> intro fits node
    case h_2 name head arguments =>
      rw [head, arguments] at node
      exact ⟨⟨fits.1, fits.2, u, occurs, node⟩, fits.2⟩
    all_goals exact fits

end Store

namespace BlastWork

variable {w w' : BlastWork} {s after : Store} {L : Constants}

/-- The constants that may occur in encodings of terms over given constants: the boolean ones, the
bits of those that were replaced, and the bit-vector constants that were kept. -/
def vocabulary (w : BlastWork) (s : Store) (L : Constants) : Constants
  | name, .bool => L name .bool ∨ ∃ c ∈ w.constants, ∃ x width,
    s.node c.1 = ⟨.var x, [], .bitVec width⟩ ∧ L x (.bitVec width) ∧
      name ∈ Blaster.bitNames x width
  | name, .bitVec width =>
    L name (.bitVec width) ∧ ∃ c, c ∈ w.kept ∧ s.node c = ⟨.var name, [], .bitVec width⟩
  | _, _ => False

/-- A run goes on from one working state to another, in the same scopes. -/
structure Grows (w w' : BlastWork) : Prop where
  /-- Constants stay replaced. -/
  constants : ∀ c ∈ w.constants, c ∈ w'.constants
  /-- Constants stay kept. -/
  kept : ∀ c, c ∈ w.kept → c ∈ w'.kept
  /-- As many quantifiers are around. -/
  scopes : w'.inner.length = w.inner.length

theorem Grows.refl (w : BlastWork) : w.Grows w :=
  ⟨fun _ member => member, fun _ member => member, rfl⟩

theorem Grows.trans {w'' : BlastWork} (early : w.Grows w') (late : w'.Grows w'') : w.Grows w'' where
  constants c member := late.constants c (early.constants c member)
  kept c member := late.kept c (early.kept c member)
  scopes := late.scopes.trans early.scopes

/-- Outside of all quantifiers a run stays there. -/
theorem Grows.inner_eq_nil (grows : w.Grows w') (outside : w.inner = []) : w'.inner = [] := by
  apply List.eq_nil_of_length_eq_zero
  rw [grows.scopes, outside, List.length_nil]

/-- The constants of encodings stay possible. -/
theorem vocabulary_mono (grows : w.Grows w') (grown : s.Extends after) (name : String)
    (sort : TermSort) (known : w.vocabulary s L name sort) : w'.vocabulary after L name sort := by
  have lasting : ∀ c x width, s.node c = ⟨.var x, [], .bitVec width⟩ →
      after.node c = ⟨.var x, [], .bitVec width⟩ := by
    intro c x width node
    rw [← node]
    exact grown.node_eq (Store.lt_size_of_var (congrArg Node.op node))
  cases sort with
  | bool =>
    obtain old | ⟨c, member, x, width, node, known, bit⟩ := known
    · exact .inl old
    · exact .inr ⟨c, grows.constants c member, x, width, lasting _ _ _ node, known, bit⟩
  | bitVec width =>
    obtain ⟨known, c, kept, node⟩ := known
    exact ⟨known, c, grows.kept c kept, lasting _ _ _ node⟩
  | _ => exact known

/-- Terms are the bits of a term, wherever it is well-sorted. -/
def TermBits (w : BlastWork) (s : Store) (t : TermId) (bits : Bits) : Prop :=
  ∀ L, s.BitSorted L t → ∀ truth width (x : BitVec width), s.datum (ofBits truth) t = .word width x →
    ((ofBits truth).reading (w.vocabulary s L)).Word s bits x

/-- A formula encodes another, wherever that one is well-sorted. -/
def FormulaBit (w : BlastWork) (s : Store) (f encoding : TermId) : Prop :=
  ∀ L, s.BitSorted L f → ∀ truth p, s.datum (ofBits truth) f = .truth p →
    ((ofBits truth).reading (w.vocabulary s L)).Bit s encoding p

/-- Encodings stay correct. -/
theorem FormulaBit.mono {f encoding : TermId} (known : w.FormulaBit s f encoding)
    (inside : f < s.size) (grows : w.Grows w') (grown : s.Extends after) :
    w'.FormulaBit after f encoding := by
  intro L sorted truth p value
  rw [grown.datum_eq _ inside] at value
  have bit := known L (sorted.of_extends grown inside) truth p value
  exact (bit.mono grown).widen (vocabulary_mono grows grown)

/-- Bits stay correct. -/
theorem TermBits.mono {t : TermId} {bits : Bits} (known : w.TermBits s t bits)
    (inside : t < s.size) (grows : w.Grows w') (grown : s.Extends after) :
    w'.TermBits after t bits := by
  intro L sorted truth width x value
  rw [grown.datum_eq _ inside] at value
  have word := known L (sorted.of_extends grown inside) truth width x value
  exact word.imp fun _ _ bit => (bit.mono grown).widen (vocabulary_mono grows grown)

/-- Terms are the boolean constants for the bits of a constant. -/
def ConstantBits (s : Store) (t : TermId) (bits : Bits) : Prop :=
  ∃ name width, s.op t = .var name ∧ s.sortOf t = .bitVec width ∧
    List.Forall₂ (fun n u => s.node u = ⟨.var n, [], .bool⟩) (Blaster.bitNames name width) bits

/-- The boolean constants for the bits of a constant stay the same. -/
theorem ConstantBits.mono {t : TermId} {bits : Bits} (known : ConstantBits s t bits)
    (grown : s.Extends after) : ConstantBits after t bits := by
  obtain ⟨name, width, var, vector, bits⟩ := known
  have inside := Store.lt_size_of_var var
  refine ⟨name, width, (grown.op_eq inside).trans var, (grown.sortOf_eq inside).trans vector, ?_⟩
  apply bits.imp
  intro n u node
  rw [← node]
  exact grown.node_eq (Store.lt_size_of_var (congrArg Node.op node))

/-- A well-sorted constant has no arguments and is one of the constants. -/
theorem node_of_var {t : TermId} {name : String} (sorted : s.BitSorted L t)
    (var : s.op t = .var name) :
    s.node t = ⟨.var name, [], s.sortOf t⟩ ∧ L name (s.sortOf t) := by
  have fits := sorted.fits
  have node : s.node t = ⟨s.op t, s.args t, s.sortOf t⟩ := rfl
  rw [var] at fits node
  cases arguments : s.args t with
  | nil =>
    rw [arguments] at fits node
    exact ⟨node, fits.1⟩
  | cons =>
    rw [arguments] at fits
    exact fits.elim

/-- The boolean constants for the bits of a constant that was replaced are its bits. -/
theorem ConstantBits.termBits {t : TermId} {bits : Bits} (known : ConstantBits s t bits)
    (member : (t, bits) ∈ w.constants) : w.TermBits s t bits := by
  intro L sorted truth width x value
  obtain ⟨name, v, var, vector, bits⟩ := known
  obtain ⟨node, constant⟩ := node_of_var sorted var
  rw [vector] at node constant
  rw [Store.datum_eq, var, vector] at value
  obtain ⟨rfl, same⟩ := Datum.word.inj value
  rw [Reading.Word, ← eq_of_heq same, BitAssignment.digits_ofBits]
  apply List.forall₂_map_right_iff.mpr
  apply (List.Forall₂.flip ?_)
  have members : ∀ n ∈ Blaster.bitNames name v, w.vocabulary s L n .bool :=
    fun n inside => .inr ⟨(t, _), member, name, v, node, constant, inside⟩
  apply ((List.forall₂_and_left _ _).mpr ⟨members, bits⟩).imp
  rintro n u ⟨possible, node⟩
  have fits : s.BitFits (w.vocabulary s L) .bool (.var n) [] := ⟨possible, .inl rfl⟩
  have inside : u < s.size := Store.lt_size_of_var (congrArg Node.op node)
  exact Terms.computes_of_node (.refl s) ⟨inside, node⟩ fits (by simp)

/-- What a working state knows outside of all quantifiers is correct. -/
structure Sound (w : BlastWork) (s : Store) : Prop where
  /-- Bits of constants. -/
  constants : ∀ c ∈ w.constants, ConstantBits s c.1 c.2
  /-- Bits of terms. -/
  terms : ∀ t bits, w.outer.terms[t]? = some bits → t < s.size ∧ w.TermBits s t bits
  /-- Encodings of formulas. -/
  formulas : ∀ f encoding, w.outer.formulas[f]? = some encoding →
    f < s.size ∧ w.FormulaBit s f encoding

/-- A working state that replaces no further constants and remembers nothing else outside of all
quantifiers is as correct as before. -/
theorem Sound.mono (sound : w.Sound s) (grows : w.Grows w') (grown : s.Extends after)
    (constants : w'.constants = w.constants) (terms : w'.outer.terms = w.outer.terms)
    (formulas : w'.outer.formulas = w.outer.formulas) : w'.Sound after where
  constants c member := by
    rw [constants] at member
    exact (sound.constants c member).mono grown
  terms t bits found := by
    rw [terms] at found
    obtain ⟨inside, known⟩ := sound.terms t bits found
    exact ⟨grown.lt_size inside, known.mono inside grows grown⟩
  formulas f encoding found := by
    rw [formulas] at found
    obtain ⟨inside, known⟩ := sound.formulas f encoding found
    exact ⟨grown.lt_size inside, known.mono inside grows grown⟩

/-- Entering and leaving quantifiers changes nothing outside of them. -/
theorem Sound.with_inner (sound : w.Sound s) (inner : List BlastScope) :
    Sound { w with inner } s :=
  ⟨sound.constants, sound.terms, sound.formulas⟩

/-- The working state in which nothing is known. -/
theorem sound_empty (s : Store) : ({} : BlastWork).Sound s where
  constants c member := by cases Array.not_mem_empty c member
  terms t bits found := by simp at found
  formulas f encoding found := by simp at found

section Keeping

/-- What does not change when atoms are kept. -/
structure Keeps (w w' : BlastWork) : Prop where
  grows : w.Grows w'
  constants : w'.constants = w.constants
  outer : w'.outer = w.outer

theorem Keeps.sound (keeps : w.Keeps w') (sound : w.Sound s) : w'.Sound s :=
  sound.mono keeps.grows (.refl s) keeps.constants (by rw [keeps.outer]) (by rw [keeps.outer])

/-- Keeping a constant. -/
theorem keepConstant_keeps (w : BlastWork) (c : TermId) : w.Keeps (w.keepConstant c) := by
  unfold keepConstant
  split
  · exact ⟨⟨fun _ member => member, fun _ member => member, by simp⟩, rfl, rfl⟩
  · refine ⟨⟨fun _ member => member, fun d member => ?_, rfl⟩, rfl, rfl⟩
    exact Std.HashSet.mem_insert.mpr (.inr member)

/-- A constant that is kept outside of all quantifiers. -/
theorem mem_kept_keepConstant {c : TermId} (outside : w.inner = []) :
    c ∈ (w.keepConstant c).kept := by
  unfold keepConstant
  rw [outside, List.any_nil, if_neg Bool.false_ne_true]
  exact Std.HashSet.mem_insert_self

/-- Keeping constants one after the other. -/
theorem foldl_keepConstant (w : BlastWork) (constants : List TermId) :
    w.Keeps (constants.foldl keepConstant w) ∧
      (w.inner = [] → ∀ c ∈ constants, c ∈ (constants.foldl keepConstant w).kept) := by
  induction constants generalizing w with
  | nil => exact ⟨⟨.refl w, rfl, rfl⟩, fun _ => nofun⟩
  | cons c rest tail =>
    have first := keepConstant_keeps w c
    obtain ⟨others, found⟩ := tail (w.keepConstant c)
    refine ⟨⟨first.grows.trans others.grows, others.constants.trans first.constants,
      others.outer.trans first.outer⟩, fun outside d member => ?_⟩
    obtain rfl | later := List.mem_cons.mp member
    · exact others.grows.kept _ (mem_kept_keepConstant outside)
    · exact found (first.grows.inner_eq_nil outside) d later

/-- Keeping an atom. -/
theorem keep_keeps (w : BlastWork) (s : Store) (f : TermId) : w.Keeps (w.keep s f) :=
  (foldl_keepConstant w _).1

/-- The constants of an atom that is kept outside of all quantifiers are those of encodings. -/
theorem keep_sorted {f : TermId} (outside : w.inner = []) (sorted : s.BitSorted L f) :
    s.BitSorted ((w.keep s f).vocabulary s L) f := by
  apply (sorted.over_occurring .here).widen
  rintro name sort ⟨known, rfl | ⟨width, rfl⟩, c, occurs, node⟩
  · exact .inl known
  · have var : s.op c = .var name := congrArg Node.op node
    have vector : s.sortOf c = .bitVec width := congrArg Node.sort node
    have free := Store.mem_freeConstants sorted.plain occurs var
    refine ⟨known, c, (foldl_keepConstant w _).2 outside c ?_, node⟩
    exact List.mem_filter.mpr ⟨free, by simp [vector, TermSort.width?]⟩

end Keeping

end BlastWork

namespace Blaster

open Attempt BlastWork

variable {b b' : Blaster} {s after : Store} {t f : TermId} {context : Context} {depth : ℕ}

/-- The bits of a term after a run. -/
structure BitsDone (w : BlastWork) (t : TermId) (out : Bits) (w' : BlastWork) (after : Store) :
    Prop where
  /-- The run goes on. -/
  grows : w.Grows w'
  /-- What is known is correct. -/
  sound : w'.Sound after
  /-- The bits are correct outside of all quantifiers. -/
  bits : w.inner = [] → w'.TermBits after t out

/-- The encoding of a formula after a run. -/
structure FormulaDone (w : BlastWork) (f encoding : TermId) (w' : BlastWork) (after : Store) :
    Prop where
  /-- The run goes on. -/
  grows : w.Grows w'
  /-- What is known is correct. -/
  sound : w'.Sound after
  /-- The encoding is correct outside of all quantifiers. -/
  bit : w.inner = [] → w'.FormulaBit after f encoding

/-- Circumstances interrupt only. -/
theorem check_ensures {σ : Type} {state : σ} :
    (Attempt.check context : Attempt σ Unit).Ensures state s
      (fun _ state' after => state' = state ∧ after = s) (fun e _ _ => e.isInterrupt) := by
  refine ensures_read_bind ?_
  unfold Context.check
  split_ifs
  · exact ensures_throw rfl
  · exact ensures_throw rfl
  · split
    · split_ifs
      · exact ensures_throw rfl
      · exact ensures_pure ⟨rfl, rfl⟩
    · exact ensures_pure ⟨rfl, rfl⟩

/-- A step only counts, or interrupts. -/
theorem step_ensures :
    (step context).Ensures b s
      (fun _ b' after => after = s ∧ b' = { b with work := { b.work with steps := b.work.steps + 1 } })
      (fun e _ _ => e.isInterrupt) := by
  unfold step
  refine ensures_modify_bind (ensures_get_bind ?_)
  dsimp only
  split_ifs
  · exact ensures_throw rfl
  · have memory : checkMemory.Ensures { b with work := { b.work with steps := b.work.steps + 1 } } s
        (fun _ b' after => after = s ∧
          b' = { b with work := { b.work with steps := b.work.steps + 1 } })
        (fun e _ _ => e.isInterrupt) := by
      unfold checkMemory
      refine ensures_get_bind ?_
      split
      · refine ensures_read_bind ?_
        split_ifs
        · exact ensures_throw rfl
        · exact ensures_pure ⟨rfl, rfl⟩
      · exact ensures_pure ⟨rfl, rfl⟩
    refine ensures_bind memory ?_
    rintro _ _ _ _ ⟨rfl, rfl⟩
    exact check_ensures.imp (fun _ _ _ _ same => ⟨same.2, same.1⟩) fun _ _ _ _ interrupt => interrupt
  · exact ensures_pure ⟨rfl, rfl⟩

/-- The boolean constants for the bits of a constant are built. -/
theorem mkBits_ensures (names : List String) :
    (names.mapM fun n => Terms.mkVar n .bool).Ensures s fun bits after =>
      List.Forall₂ (fun n u => after.node u = ⟨.var n, [], .bool⟩) names bits := by
  apply Terms.ensures_mapM
  · intro n u before after grown node
    rw [← node]
    exact grown.node_eq (Store.lt_size_of_var (congrArg Node.op node))
  · intro n _ now _
    apply Terms.ensures_bind_of_all
    intro _ after _
    exact (Terms.intern_node (by simp)).imp fun u last _ found => found.2

/-- The bits of a constant. -/
theorem constantBits_ensures {bad : Error → Blaster → Store → Prop} {name : String}
    (sound : b.work.Sound s) (var : s.op t = .var name)
    (failed : ∀ e, (∀ width, s.sortOf t ≠ .bitVec width) → bad e b s) :
    (constantBits t).Ensures b s (fun out b' => BitsDone b.work t out b'.work) bad := by
  unfold constantBits
  refine ensures_get_bind ?_
  dsimp only
  split
  · next bits found =>
    refine ensures_pure ⟨.refl _, sound, fun outside => ?_⟩
    have unbound : b.work.boundBits? t = none := by rw [boundBits?, outside, List.findSome?_nil]
    rw [unbound, Option.none_or, Option.map_eq_some_iff] at found
    obtain ⟨⟨u, known⟩, found, rfl⟩ := found
    obtain rfl : u = t := by simpa using Array.find?_some found
    have member := Array.mem_of_find?_eq_some found
    exact (sound.constants _ member).termBits member
  · refine ensures_read_bind ?_
    split
    · next x width named sized =>
      have vector : s.sortOf t = .bitVec width := by
        unfold TermSort.width? at sized
        split at sized
        · next same => rw [same, Option.some.inj sized]
        · cases sized
      have same : name = x := by
        rw [Store.varName?, var] at named
        exact Option.some.inj named
      subst same
      refine ensures_bind (ensures_build (mkBits_ensures (bitNames name width))) ?_
      rintro bits b after grown ⟨rfl, built⟩
      refine ensures_modify_bind ?_
      have inside := Store.lt_size_of_var var
      have constant : ConstantBits after t bits := ⟨name, width, (grown.op_eq inside).trans var,
        (grown.sortOf_eq inside).trans vector, built⟩
      have grows : b.work.Grows { b.work with constants := b.work.constants.push (t, bits) } :=
        ⟨fun c member => Array.mem_push.mpr (.inl member), fun _ member => member, rfl⟩
      refine ensures_pure ⟨grows, ⟨fun c member => ?_, fun u known found => ?_,
        fun f encoding found => ?_⟩, fun _ => constant.termBits (Array.mem_push_self ..)⟩
      · obtain old | rfl := Array.mem_push.mp member
        · exact (sound.constants c old).mono grown
        · exact constant
      · obtain ⟨inside, known⟩ := sound.terms u known found
        exact ⟨grown.lt_size inside, known.mono inside grows grown⟩
      · obtain ⟨inside, known⟩ := sound.formulas f encoding found
        exact ⟨grown.lt_size inside, known.mono inside grows grown⟩
    · next absent =>
      refine ensures_throw (failed _ fun width vector => ?_)
      exact absent name width (by rw [Store.varName?, var]) (by rw [vector]; rfl)

section Remembering

variable (change : BlastScope → BlastScope)

/-- Changing a scope goes on in the same scopes. -/
theorem modifyScope_grows (w : BlastWork) : w.Grows (w.modifyScope change) := by
  obtain ⟨constants, applications, kept, support, outer, inner, steps⟩ := w
  cases inner <;> exact ⟨fun _ member => member, fun _ member => member, rfl⟩

/-- Changing a scope replaces no constants. -/
theorem modifyScope_constants (w : BlastWork) : (w.modifyScope change).constants = w.constants := by
  obtain ⟨constants, applications, kept, support, outer, inner, steps⟩ := w
  cases inner <;> rfl

/-- Only outside of all quantifiers the outer scope is changed. -/
theorem modifyScope_outer (w : BlastWork) : (w.modifyScope change).outer = w.outer ∨
    w.inner = [] ∧ (w.modifyScope change).outer = change w.outer := by
  obtain ⟨constants, applications, kept, support, outer, inner, steps⟩ := w
  cases inner with
  | nil => exact .inr ⟨rfl, rfl⟩
  | cons => exact .inl rfl

/-- Outside of all quantifiers before a run is so after it, and the other way round. -/
theorem outside_of_grows {w w' : BlastWork} (grows : w.Grows w') (outside : w'.inner = []) :
    w.inner = [] := by
  apply List.eq_nil_of_length_eq_zero
  rw [← grows.scopes, outside, List.length_nil]

/-- What is found after a value was remembered is that value, or was there before. -/
theorem found_insert {β : Type} {map : Std.HashMap TermId β} {t u : TermId} {x y : β}
    (found : (map.insert t x)[u]? = some y) : t = u ∧ x = y ∨ map[u]? = some y := by
  rw [Std.HashMap.getElem?_insert] at found
  split at found
  · next same => exact .inl ⟨eq_of_beq same, Option.some.inj found⟩
  · exact .inr found

/-- Remembering the bits of a term. -/
theorem remember_bits {out : Bits} {bad : Error → Blaster → Store → Prop} {w : BlastWork}
    (inside : t < s.size) (done : BitsDone w t out b.work s) :
    (do rememberTerm t out; pure out : Attempt Blaster Bits).Ensures b s
      (fun out b' => BitsDone w t out b'.work) bad := by
  refine ensures_modify_bind (ensures_pure ?_)
  obtain ⟨grown, sound, bits⟩ := done
  have grows := modifyScope_grows
    (fun scope => { scope with terms := scope.terms.insert t out }) b.work
  refine ⟨grown.trans grows, ?_, fun outside => (bits outside).mono inside grows (.refl s)⟩
  rcases modifyScope_outer (fun scope => { scope with terms := scope.terms.insert t out }) b.work
    with same | ⟨outside, changed⟩
  · exact sound.mono grows (.refl s) (modifyScope_constants _ _) (by rw [same]) (by rw [same])
  · refine ⟨fun c member => ?_, fun u known found => ?_, fun f encoding found => ?_⟩
    · rw [modifyScope_constants] at member
      exact sound.constants c member
    · rw [changed] at found
      obtain ⟨rfl, rfl⟩ | old := found_insert found
      · exact ⟨inside, (bits (outside_of_grows grown outside)).mono inside grows (.refl s)⟩
      · obtain ⟨there, known⟩ := sound.terms u known old
        exact ⟨there, known.mono there grows (.refl s)⟩
    · rw [changed] at found
      obtain ⟨there, known⟩ := sound.formulas f encoding found
      exact ⟨there, known.mono there grows (.refl s)⟩

/-- Remembering the encoding of a formula. -/
theorem remember_formula {encoding : TermId} {bad : Error → Blaster → Store → Prop}
    {w : BlastWork} (inside : f < s.size) (done : FormulaDone w f encoding b.work s) :
    (do rememberFormula f encoding; pure encoding : Attempt Blaster TermId).Ensures b s
      (fun encoding b' => FormulaDone w f encoding b'.work) bad := by
  refine ensures_modify_bind (ensures_pure ?_)
  obtain ⟨grown, sound, bit⟩ := done
  have grows := modifyScope_grows
    (fun scope => { scope with formulas := scope.formulas.insert f encoding }) b.work
  refine ⟨grown.trans grows, ?_, fun outside => (bit outside).mono inside grows (.refl s)⟩
  rcases modifyScope_outer
    (fun scope => { scope with formulas := scope.formulas.insert f encoding }) b.work with same | ⟨outside, changed⟩
  · exact sound.mono grows (.refl s) (modifyScope_constants _ _) (by rw [same]) (by rw [same])
  · refine ⟨fun c member => ?_, fun t bits found => ?_, fun g known found => ?_⟩
    · rw [modifyScope_constants] at member
      exact sound.constants c member
    · rw [changed] at found
      obtain ⟨there, known⟩ := sound.terms t bits found
      exact ⟨there, known.mono there grows (.refl s)⟩
    · rw [changed] at found
      obtain ⟨rfl, rfl⟩ | old := found_insert found
      · exact ⟨inside, (bit (outside_of_grows grown outside)).mono inside grows (.refl s)⟩
      · obtain ⟨there, known⟩ := sound.formulas g known old
        exact ⟨there, known.mono there grows (.refl s)⟩

end Remembering

section Keeping

variable {bad : Error → Blaster → Store → Prop}

/-- Keeping a term changes nothing but what is kept. -/
theorem keep_ensures :
    (keep f).Ensures b s (fun _ b' after => after = s ∧ b'.work = b.work.keep s f) bad := ⟨rfl, rfl⟩

/-- A formula that is kept encodes itself. -/
theorem keep_done {w : BlastWork} (sound : w.Sound s) : FormulaDone w f f (w.keep s f) s := by
  have keeps := keep_keeps w s f
  refine ⟨keeps.grows, keeps.sound sound, fun outside L sorted truth p value => ?_⟩
  exact ⟨keep_sorted outside sorted, sorted.sort_of_truth value, value⟩

/-- An atom that is kept encodes itself. -/
theorem keepAtom_ensures (sound : b.work.Sound s) :
    (keepAtom f).Ensures b s (fun encoding b' => FormulaDone b.work f encoding b'.work) bad := by
  refine ensures_modify_bind (ensures_bind keep_ensures ?_)
  rintro _ b' _ _ ⟨rfl, same⟩
  refine ensures_pure ?_
  rw [same]
  exact keep_done sound

/-- Judging terms changes nothing but what is known about judgements. -/
theorem supportsAll_ensures {args : List TermId} (sound : b.work.Sound s) :
    (supportsAll args).Ensures b s (fun _ b' after => after = s ∧ b'.work.Sound s ∧
      b.work.Grows b'.work) bad := by
  have same : ∀ support, b.work.Grows { b.work with support } :=
    fun _ => ⟨fun _ member => member, fun _ member => member, rfl⟩
  exact ⟨rfl, sound.mono (same _) (.refl s) rfl rfl rfl, same _⟩

/-- The bits of an application, which is not well-sorted over booleans and bit-vectors. -/
theorem applicationBits_ensures (sound : b.work.Sound s) (inside : t < s.size)
    (unsorted : ∀ L, ¬s.BitSorted L t) (failed : ∀ e, bad e b s) :
    (applicationBits t).Ensures b s (fun out b' => BitsDone b.work t out b'.work) bad := by
  unfold applicationBits
  refine ensures_get_bind ?_
  split
  · exact ensures_pure ⟨.refl _, sound, fun _ L sorted => absurd sorted (unsorted L)⟩
  · refine ensures_read_bind ?_
    split
    · refine ensures_bind ensures_build_any ?_
      rintro bits b after grown rfl
      refine ensures_modify_bind (ensures_bind keep_ensures ?_)
      rintro _ ⟨config, stats, work⟩ now _ ⟨rfl, kept⟩
      refine ensures_modify_bind (ensures_pure ?_)
      have keeps : b.work.Keeps work := by
        have same : work = b.work.keep now t := kept
        exact same ▸ keep_keeps b.work now t
      have sound := keeps.sound (sound.mono (.refl _) grown rfl rfl rfl)
      have same : work.Grows { work with applications := work.applications.push (t, bits) } :=
        ⟨fun _ member => member, fun _ member => member, rfl⟩
      refine ⟨keeps.grows.trans same, sound.mono same (.refl _) rfl rfl rfl, fun _ L sorted => ?_⟩
      exact absurd (sorted.of_extends grown inside) (unsorted L)
    · exact ensures_throw (failed _)

end Keeping

section Operations

variable {w : BlastWork} {a b c : TermId} {op : Op} {as bs : Bits}

/-- What a circuit computes in the reading of an encoding are the bits of a term. -/
theorem termBits_of_circuit {circuit : Terms Bits} (inside : t < s.size)
    (computes : ∀ L, s.BitSorted L t → ∀ truth width (z : BitVec width),
      s.datum (ofBits truth) t = .word width z → circuit.Ensures s fun out after =>
        ((ofBits truth).reading (w.vocabulary s L)).Word after out z) :
    circuit.Ensures s fun out after => w.TermBits after t out := by
  intro L sorted truth width z value
  have grown := circuit.grows s
  rw [grown.datum_eq _ inside] at value
  have word := computes L (sorted.of_extends grown inside) truth width z value
  exact List.Forall₂.imp (fun _ _ bit => bit.widen (vocabulary_mono (.refl w) grown)) word

/-- What a circuit computes in the reading of an encoding is the truth value of a formula. -/
theorem formulaBit_of_circuit {circuit : Terms TermId} (inside : f < s.size)
    (computes : ∀ L, s.BitSorted L f → ∀ truth p, s.datum (ofBits truth) f = .truth p →
      circuit.Ensures s fun u after => ((ofBits truth).reading (w.vocabulary s L)).Bit after u p) :
    circuit.Ensures s fun u after => w.FormulaBit after f u := by
  intro L sorted truth p value
  have grown := circuit.grows s
  rw [grown.datum_eq _ inside] at value
  have bit := computes L (sorted.of_extends grown inside) truth p value
  exact Store.Computes.widen bit (vocabulary_mono (.refl w) grown)

/-- An operation on one vector. -/
theorem unary_bits {g : ∀ {v : ℕ}, BitVec v → BitVec v} {circuit : Bits → Terms Bits}
    (inside : t < s.size) (view : s.view t = (op, [a]))
    (fits : ∀ K sort, s.BitFits K sort op [a] → ∃ v, s.sortOf a = .bitVec v)
    (computes : ∀ I sort x, op.compute I sort [x] = x.map g)
    (word : ∀ {R : Reading} {now : Store} {v : ℕ} {x : BitVec v}, R.Word now as x →
      (circuit as).Ensures now fun out after => R.Word after out (g x))
    (known : w.TermBits s a as) :
    (circuit as).Ensures s fun out after => w.TermBits after t out := by
  apply termBits_of_circuit inside
  intro L sorted truth width z value
  obtain ⟨fitting, args, datum⟩ := sorted.of_view view
  have sortedArg := args a (by simp)
  obtain ⟨v, vector⟩ := fits _ _ fitting
  obtain ⟨x, first⟩ := sortedArg.datum_word (I := ofBits truth) vector
  rw [datum, List.map_cons, List.map_nil, computes, first, Datum.map_word] at value
  obtain ⟨rfl, same⟩ := Datum.word.inj value
  exact eq_of_heq same ▸ word (known L sortedArg truth v x first)

/-- The bits of two vectors of one width. -/
theorem operands {L : Constants} (sorted : s.BitSorted L t) (view : s.view t = (op, [a, b]))
    {v u : ℕ} (first : s.sortOf a = .bitVec v) (second : s.sortOf b = .bitVec u)
    (left : w.TermBits s a as) (right : w.TermBits s b bs) (truth : String → Bool) :
    ∃ (x : BitVec v) (y : BitVec u),
      ((ofBits truth).reading (w.vocabulary s L)).Word s as x ∧
      ((ofBits truth).reading (w.vocabulary s L)).Word s bs y ∧
      s.datum (ofBits truth) t =
        op.compute (ofBits truth) (s.sortOf t) [.word v x, .word u y] := by
  obtain ⟨_, args, datum⟩ := sorted.of_view view
  have sortedLeft := args a (by simp)
  have sortedRight := args b (by simp)
  obtain ⟨x, valueLeft⟩ := sortedLeft.datum_word (I := ofBits truth) first
  obtain ⟨y, valueRight⟩ := sortedRight.datum_word (I := ofBits truth) second
  refine ⟨x, y, left L sortedLeft truth v x valueLeft, right L sortedRight truth u y valueRight, ?_⟩
  rw [datum, List.map_cons, List.map_cons, List.map_nil, valueLeft, valueRight]

/-- An operation on two vectors of one width. -/
theorem binary_bits {g : ∀ {v : ℕ}, BitVec v → BitVec v → BitVec v}
    {circuit : Bits → Bits → Terms Bits} (inside : t < s.size) (view : s.view t = (op, [a, b]))
    (fits : ∀ K sort, s.BitFits K sort op [a, b] →
      ∃ v, s.sortOf a = .bitVec v ∧ s.sortOf b = .bitVec v)
    (computes : ∀ I sort x y, op.compute I sort [x, y] = x.combine g y)
    (word : ∀ {R : Reading} {now : Store} {v : ℕ} {x y : BitVec v}, R.Word now as x →
      R.Word now bs y → (circuit as bs).Ensures now fun out after => R.Word after out (g x y))
    (left : w.TermBits s a as) (right : w.TermBits s b bs) :
    (circuit as bs).Ensures s fun out after => w.TermBits after t out := by
  apply termBits_of_circuit inside
  intro L sorted truth width z value
  obtain ⟨v, first, second⟩ := fits _ _ (sorted.of_view view).1
  obtain ⟨x, y, bitsLeft, bitsRight, datum⟩ := operands sorted view first second left right truth
  rw [datum, computes, Datum.combine_word] at value
  obtain ⟨rfl, same⟩ := Datum.word.inj value
  exact eq_of_heq same ▸ word bitsLeft bitsRight

/-- A predicate on two vectors of one width. -/
theorem binary_bit (g : ∀ {v : ℕ}, BitVec v → BitVec v → Bool)
    (circuit : Bits → Bits → Terms TermId) (inside : f < s.size) (view : s.view f = (op, [a, b]))
    (fits : ∀ K sort, s.BitFits K sort op [a, b] →
      ∃ v, s.sortOf a = .bitVec v ∧ s.sortOf b = .bitVec v)
    (computes : ∀ I sort v (x y : BitVec v),
      op.compute I sort [.word v x, .word v y] = .truth (g x y))
    (bit : ∀ {R : Reading} {now : Store} {v : ℕ} {x y : BitVec v}, R.Word now as x →
      R.Word now bs y → (circuit as bs).Ensures now fun u after => R.Bit after u (g x y))
    (left : w.TermBits s a as) (right : w.TermBits s b bs) :
    (circuit as bs).Ensures s fun u after => w.FormulaBit after f u := by
  apply formulaBit_of_circuit inside
  intro L sorted truth p value
  obtain ⟨v, first, second⟩ := fits _ _ (sorted.of_view view).1
  obtain ⟨x, y, bitsLeft, bitsRight, datum⟩ := operands sorted view first second left right truth
  rw [datum, computes] at value
  exact Datum.truth.inj value ▸ bit bitsLeft bitsRight

/-- Concatenation. -/
theorem concat_bits (inside : t < s.size) (view : s.view t = (.bvConcat, [a, b]))
    (high : w.TermBits s a as) (low : w.TermBits s b bs) :
    (pure (bs ++ as) : Terms Bits).Ensures s fun out after => w.TermBits after t out := by
  apply termBits_of_circuit inside
  intro L sorted truth width z value
  obtain ⟨v, u, _, first, second⟩ := (sorted.of_view view).1
  obtain ⟨x, y, bitsHigh, bitsLow, datum⟩ := operands sorted view first second high low truth
  rw [datum, Op.compute, Datum.append_word] at value
  obtain ⟨rfl, same⟩ := Datum.word.inj value
  exact eq_of_heq same ▸ Circuit.append_word bitsHigh bitsLow

/-- A part of a vector. -/
theorem extract_bits {high low : ℕ} (view : s.view t = (.bvExtract high low, [a]))
    (known : w.TermBits s a as) :
    w.TermBits s t ((as.drop low).take (high + 1 - low)) := by
  intro L sorted truth width z value
  obtain ⟨⟨v, _, vector, order, inside⟩, args, datum⟩ := sorted.of_view view
  have sortedArg := args a (by simp)
  obtain ⟨x, first⟩ := sortedArg.datum_word (I := ofBits truth) vector
  rw [datum, List.map_cons, List.map_nil, first, Op.compute, Datum.extract_word] at value
  obtain ⟨rfl, same⟩ := Datum.word.inj value
  exact eq_of_heq same ▸ Circuit.extract_word order inside (known L sortedArg truth v x first)

/-- A choice between vectors. -/
theorem ite_bits {condition : TermId} (inside : t < s.size)
    (view : s.view t = (.ite, [c, a, b])) (chosen : w.FormulaBit s c condition)
    (left : w.TermBits s a as) (right : w.TermBits s b bs) :
    (Circuit.zipWith (Gate.mux condition) as bs).Ensures s fun out after =>
      w.TermBits after t out := by
  apply termBits_of_circuit inside
  intro L sorted truth width z value
  obtain ⟨⟨bool, first, second⟩, args, datum⟩ := sorted.of_view view
  have sort := sorted.sort_of_word value
  rw [sort] at first second
  have bit := chosen L (args c (by simp)) truth _ ((args c (by simp)).datum_truth bool)
  obtain ⟨x, valueLeft⟩ := (args a (by simp)).datum_word (I := ofBits truth) first
  obtain ⟨y, valueRight⟩ := (args b (by simp)).datum_word (I := ofBits truth) second
  have mux := Circuit.mux_word bit (left L (args a (by simp)) truth width x valueLeft)
    (right L (args b (by simp)) truth width y valueRight)
  rw [datum, List.map_cons, List.map_cons, List.map_cons, List.map_nil, valueLeft, valueRight,
    Op.compute, ← apply_ite (Datum.word width)] at value
  obtain ⟨_, same⟩ := Datum.word.inj value
  exact eq_of_heq same ▸ mux

/-- Pairwise difference of vectors. -/
theorem distinct_bit {terms : List TermId} {vectors : List Bits} (inside : f < s.size)
    (view : s.view f = (.distinct, terms)) {v : ℕ} (vector : ∀ a ∈ terms, s.sortOf a = .bitVec v)
    (known : List.Forall₂ (w.TermBits s) terms vectors) :
    (Circuit.distinct vectors).Ensures s fun u after => w.FormulaBit after f u := by
  apply formulaBit_of_circuit inside
  intro L sorted truth p value
  obtain ⟨-, args, datum⟩ := sorted.of_view view
  -- The values of the terms, as bit-vectors of the common width.
  have words : ∃ xs : List (BitVec v), terms.map (s.datum (ofBits truth)) = xs.map (.word v) ∧
      List.Forall₂ (((ofBits truth).reading (w.vocabulary s L)).Word s) vectors xs := by
    clear view datum value
    induction known with
    | nil => exact ⟨[], rfl, .nil⟩
    | @cons a as terms vectors first _ rest =>
      obtain ⟨sortedFirst, sortedRest⟩ := List.forall_mem_cons.mp args
      obtain ⟨vectorFirst, vectorRest⟩ := List.forall_mem_cons.mp vector
      obtain ⟨xs, values, bits⟩ := rest vectorRest sortedRest
      obtain ⟨x, valueFirst⟩ := sortedFirst.datum_word (I := ofBits truth) vectorFirst
      exact ⟨x :: xs, by rw [List.map_cons, List.map_cons, valueFirst, values],
        .cons (first L sortedFirst truth v x valueFirst) bits⟩
  obtain ⟨xs, values, bits⟩ := words
  have injective : (xs.map (Datum.word v)).Pairwise (· ≠ ·) ↔ xs.Pairwise (· ≠ ·) := by
    rw [List.pairwise_map]
    simp
  rw [datum, values, Op.compute] at value
  have compared := Circuit.distinct_bit bits
  simp only [injective] at value
  exact Datum.truth.inj value ▸ compared

/-- A connective takes formulas and makes a formula of them. -/
structure Connective (s : Store) (f : TermId) : Prop where
  /-- The connective is a formula. -/
  bool : s.sortOf f = .bool
  /-- The arguments are formulas. -/
  args : ∀ a ∈ s.args f, s.sortOf a = .bool
  /-- The head with as many other formulas is well-sorted and a formula. -/
  fits : ∀ (now : Store) (K : Constants) (others : List TermId),
    others.length = (s.args f).length → (∀ a ∈ others, now.sortOf a = .bool) →
    now.BitFits K .bool (s.op f) others ∧ now.inferSort (s.op f) others = .bool
  /-- The sort follows from the arguments. -/
  sort : (s.op f).hasOwnSort = false

/-- A head that takes two formulas. -/
theorem connective_pair (view : s.view f = (op, [a, b])) (bool : s.sortOf f = .bool)
    (first : s.sortOf a = .bool) (second : s.sortOf b = .bool) (sort : op.hasOwnSort = false)
    (fits : ∀ (now : Store) K x y, now.sortOf x = .bool → now.sortOf y = .bool →
      now.BitFits K .bool op [x, y] ∧ now.inferSort op [x, y] = .bool) : Connective s f := by
  obtain ⟨head, arguments⟩ : s.op f = op ∧ s.args f = [a, b] := Prod.mk.inj view
  refine ⟨bool, by simp [arguments, first, second], fun now K others length formulas => ?_,
    by rw [head, sort]⟩
  rw [arguments] at length
  rw [head]
  obtain ⟨x, y, rfl⟩ := List.length_eq_two.mp length
  exact fits now K x y (formulas x (by simp)) (formulas y (by simp))

/-- A well-sorted connective takes formulas. -/
theorem connective_of_sorted {L : Constants} (sorted : s.BitSorted L f)
    (connective : isConnective s f) : Connective s f := by
  unfold isConnective at connective
  split at connective
  · next args view =>
    obtain ⟨head, arguments⟩ : s.op f = .not ∧ s.args f = args := Prod.mk.inj view
    match args, (sorted.of_view view).1 with
    | [a], fits =>
      refine ⟨fits.1, by simp [arguments, fits.2], fun now K others length formulas => ?_,
        by rw [head]; rfl⟩
      rw [arguments] at length
      rw [head]
      obtain ⟨x, rfl⟩ := List.length_eq_one_iff.mp length
      exact ⟨⟨rfl, formulas x (by simp)⟩, rfl⟩
  · next args view =>
    obtain ⟨head, arguments⟩ : s.op f = .and ∧ s.args f = args := Prod.mk.inj view
    obtain ⟨bool, formulas⟩ := (sorted.of_view view).1
    refine ⟨bool, by rwa [arguments], fun now K others _ formulas => ?_, by rw [head]; rfl⟩
    rw [head]
    exact ⟨⟨rfl, formulas⟩, rfl⟩
  · next args view =>
    obtain ⟨head, arguments⟩ : s.op f = .or ∧ s.args f = args := Prod.mk.inj view
    obtain ⟨bool, formulas⟩ := (sorted.of_view view).1
    refine ⟨bool, by rwa [arguments], fun now K others _ formulas => ?_, by rw [head]; rfl⟩
    rw [head]
    exact ⟨⟨rfl, formulas⟩, rfl⟩
  · next args view =>
    match args, view, (sorted.of_view view).1 with
    | [a, b], view, ⟨bool, first, second⟩ =>
      exact connective_pair view bool first second rfl
        fun now K x y left right => ⟨⟨rfl, left, right⟩, rfl⟩
  · next args view =>
    match args, view, (sorted.of_view view).1 with
    | [a, b], view, ⟨bool, first, second⟩ =>
      exact connective_pair view bool first second rfl
        fun now K x y left right => ⟨⟨rfl, left, right⟩, rfl⟩
  · next args view =>
    obtain ⟨head, arguments⟩ : s.op f = .ite ∧ s.args f = args := Prod.mk.inj view
    have bool : s.sortOf f = .bool := eq_of_beq connective
    match args, (sorted.of_view view).1 with
    | [c, a, b], ⟨condition, first, second⟩ =>
      rw [bool] at first second
      refine ⟨bool, by simp [arguments, condition, first, second],
        fun now K others length formulas => ?_, by rw [head]; rfl⟩
      rw [arguments] at length
      rw [head]
      obtain ⟨x, y, z, rfl⟩ := List.length_eq_three.mp length
      exact ⟨⟨formulas x (by simp), formulas y (by simp), formulas z (by simp)⟩,
        formulas y (by simp)⟩
  · next a rest view =>
    have first : s.sortOf a = .bool := eq_of_beq connective
    match rest, view, (sorted.of_view view).1 with
    | [b], view, ⟨bool, same⟩ =>
      exact connective_pair view bool first (same.trans first) rfl
        fun now K x y left right => ⟨⟨rfl, right.trans left.symm⟩, rfl⟩
  · cases connective

/-- A connective of encodings encodes the connective. -/
theorem connective_bit {args : List TermId} (inside : f < s.size) (connective : isConnective s f)
    (known : List.Forall₂ (w.FormulaBit s) (s.args f) args) :
    (Terms.rebuild f args).Ensures s fun u after => w.FormulaBit after f u := by
  apply formulaBit_of_circuit inside
  intro L sorted truth p value
  obtain ⟨bool, formulas, fits, own⟩ := connective_of_sorted sorted connective
  -- The encodings have the truth values of the formulas.
  have values := Terms.formulas_compute (I := ofBits truth) (fun a => sorted.of_mem_args) formulas
  have encoded : List.Forall₂ (fun u q => s.Computes (w.vocabulary s L) (ofBits truth) u .bool
      (.truth q)) args ((s.args f).map fun a => (s.datum (ofBits truth) a).holds) := by
    apply List.forall₂_map_right_iff.mpr
    apply List.Forall₂.flip
    apply ((List.forall₂_and_left _ _).mpr ⟨fun a member => member, known⟩).imp
    rintro a u ⟨member, bit⟩
    have sortedArg := sorted.of_mem_args member
    exact bit L sortedArg truth _ (sortedArg.datum_truth (formulas a member))
  have data : args.map (s.datum (ofBits truth)) = (s.args f).map (s.datum (ofBits truth)) :=
    (Store.Computes.map_datum encoded).trans (Store.Computes.map_datum values).symm
  obtain ⟨fitting, inferred⟩ := fits s (w.vocabulary s L) args known.length_eq.symm
    fun a member => (Store.Computes.of_mem encoded member).2
  have sortedArgs : ∀ a ∈ args, s.BitSorted (w.vocabulary s L) a :=
    fun a member => (Store.Computes.of_mem encoded member).1
  unfold Terms.rebuild
  refine Terms.ensures_read_bind ?_
  dsimp only
  split_ifs with same other
  · have same : s.args f = args := same
    refine Terms.ensures_pure ⟨.intro inside ?_ ?_, bool, value⟩
    · rw [bool, same]
      exact fitting
    · rw [same]
      exact sortedArgs
  · exact absurd other (by rw [show (s.node f).op = s.op f from rfl, own]; exact Bool.false_ne_true)
  · apply Terms.mkApp_computes fitting sortedArgs inferred
    rw [data, ← bool, ← Store.datum_eq]
    exact value

end Operations

end Blaster

end Stratagem
