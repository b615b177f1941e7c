import Stratagem.Proofs.BitBlast.Encoding

/-!
# Encodings mean what they encode

Whatever a bit-blaster did before, the encoding of a well-sorted formula has the value of the
formula in every assignment in which bit-vector constants have the values of their bits, and the
bits of a well-sorted bit-vector are those of its value. Terms outside of the fragment, such as
quantifiers and applications, may have been met before: what they leave behind is about them only.
-/
namespace Stratagem

open BitAssignment (ofBits)

namespace Blaster

open Attempt BlastWork

variable {b b' : Blaster} {s after : Store} {t f : TermId} {context : Context} {depth : ℕ}

section Runs

/-- An error while a term is encoded outside of all quantifiers is an interrupt, if the term is
well-sorted, not too deep and of the right sort. -/
def Excuses (w : BlastWork) (s : Store) (t : TermId) (depth : ℕ) (sort : Prop) (e : Error) : Prop :=
  w.inner = [] → (∃ L, s.BitSorted L t) → t < depth → sort → e.isInterrupt

/-- Down to a depth, the bits of terms are correct. -/
def EncodesTerms (context : Context) (depth : ℕ) : Prop :=
  ∀ (t : TermId) (b : Blaster) (s : Store), t < s.size → b.work.Sound s →
    (bits context depth t).Ensures b s (fun out b' => BitsDone b.work t out b'.work)
      (fun e _ _ => Excuses b.work s t depth (∃ width, s.sortOf t = .bitVec width) e)

/-- Down to a depth, the encodings of formulas are correct. -/
def EncodesFormulas (context : Context) (depth : ℕ) : Prop :=
  ∀ (f : TermId) (b : Blaster) (s : Store), f < s.size → b.work.Sound s →
    (formula context depth f).Ensures b s
      (fun encoding b' => FormulaDone b.work f encoding b'.work)
      (fun e _ _ => Excuses b.work s f depth True e)

variable {w : BlastWork} {now : Store} {a c : TermId} {sort : Prop}

/-- The bits of an argument. -/
theorem EncodesTerms.arg (encodes : EncodesTerms context depth) (inside : t < s.size)
    (member : a ∈ s.args t) (grows : w.Grows b.work) (grown : s.Extends now)
    (sound : b.work.Sound now)
    (vector : ∀ L, s.BitSorted L t → sort → ∃ width, s.sortOf a = .bitVec width) :
    (bits context depth a).Ensures b now (fun out b' => BitsDone b.work a out b'.work)
      (fun e _ _ => Excuses w s t (depth + 1) sort e) := by
  have before := Store.lt_of_mem_args member
  have there := before.trans inside
  apply (encodes a b now (grown.lt_size there) sound).imp fun _ _ _ _ done => done
  rintro e _ _ _ excuse outside ⟨L, sorted⟩ deep right
  apply excuse (grows.inner_eq_nil outside) ⟨L, (sorted.of_mem_args member).mono grown⟩
    (before.trans_le (Nat.le_of_lt_succ deep))
  rw [grown.sortOf_eq there]
  exact vector L sorted right

/-- The encoding of an argument. -/
theorem EncodesFormulas.arg (encodes : EncodesFormulas context depth) (inside : t < s.size)
    (member : a ∈ s.args t) (grows : w.Grows b.work) (grown : s.Extends now)
    (sound : b.work.Sound now) :
    (formula context depth a).Ensures b now
      (fun encoding b' => FormulaDone b.work a encoding b'.work)
      (fun e _ _ => Excuses w s t (depth + 1) sort e) := by
  have before := Store.lt_of_mem_args member
  have there := before.trans inside
  apply (encodes a b now (grown.lt_size there) sound).imp fun _ _ _ _ done => done
  rintro e _ _ _ excuse outside ⟨L, sorted⟩ deep _
  exact excuse (grows.inner_eq_nil outside) ⟨L, (sorted.of_mem_args member).mono grown⟩
    (before.trans_le (Nat.le_of_lt_succ deep)) trivial

/-- A circuit over the bits of two arguments. -/
theorem two_ensures {circuit : Bits → Bits → Terms Bits} (encodes : EncodesTerms context depth)
    (inside : t < s.size) (first : a ∈ s.args t) (second : c ∈ s.args t)
    (grows : w.Grows b.work) (grown : s.Extends now) (sound : b.work.Sound now)
    (vectors : ∀ L, s.BitSorted L t → sort →
      (∃ width, s.sortOf a = .bitVec width) ∧ ∃ width, s.sortOf c = .bitVec width)
    (computes : ∀ (w' : BlastWork) (last : Store) (as cs : Bits), b.work.Grows w' →
      now.Extends last → w.inner = [] → w'.TermBits last a as → w'.TermBits last c cs →
      (circuit as cs).Ensures last fun out after => w'.TermBits after t out) :
    (do
      let x ← bits context depth a
      let y ← bits context depth c
      Attempt.build (circuit x y) : Attempt Blaster Bits).Ensures b now
      (fun out b' => BitsDone w t out b'.work) (fun e _ _ => Excuses w s t (depth + 1) sort e) := by
  refine ensures_bind (encodes.arg inside first grows grown sound
    fun L sorted right => (vectors L sorted right).1) fun as b₁ s₁ g₁ left => ?_
  refine ensures_bind (encodes.arg inside second (grows.trans left.grows) (grown.trans g₁)
    left.sound fun L sorted right => (vectors L sorted right).2) fun cs b₂ s₂ g₂ right => ?_
  have further := left.grows.trans right.grows
  have built : (circuit as cs).Ensures s₂ fun out after =>
      w.inner = [] → b₂.work.TermBits after t out := by
    intro outside
    have there := grown.lt_size ((Store.lt_of_mem_args first).trans inside)
    have outside' := grows.inner_eq_nil outside
    exact computes b₂.work s₂ as cs further (g₁.trans g₂) outside
      ((left.bits outside').mono (g₁.lt_size there) right.grows g₂)
      (right.bits (left.grows.inner_eq_nil outside'))
  apply (ensures_build built).imp
  · rintro out b₃ after g₃ ⟨rfl, bits⟩
    exact ⟨grows.trans further, right.sound.mono (.refl _) g₃ rfl rfl rfl, bits⟩
  · exact fun _ _ _ _ excuse => excuse

/-- A circuit over the bits of an argument. -/
theorem one_ensures {circuit : Bits → Terms Bits} (encodes : EncodesTerms context depth)
    (inside : t < s.size) (member : a ∈ s.args t) (grows : w.Grows b.work)
    (sound : b.work.Sound s)
    (vector : ∀ L, s.BitSorted L t → sort → ∃ width, s.sortOf a = .bitVec width)
    (computes : ∀ (w' : BlastWork) (last : Store) (as : Bits), s.Extends last →
      w'.TermBits last a as → (circuit as).Ensures last fun out after => w'.TermBits after t out) :
    (do
      let x ← bits context depth a
      Attempt.build (circuit x) : Attempt Blaster Bits).Ensures b s
      (fun out b' => BitsDone w t out b'.work) (fun e _ _ => Excuses w s t (depth + 1) sort e) := by
  refine ensures_bind (encodes.arg inside member grows (.refl s) sound vector)
    fun as b₁ s₁ g₁ known => ?_
  have built : (circuit as).Ensures s₁ fun out after =>
      w.inner = [] → b₁.work.TermBits after t out :=
    fun outside => computes b₁.work s₁ as g₁ (known.bits (grows.inner_eq_nil outside))
  apply (ensures_build built).imp
  · rintro out b₃ after g₃ ⟨rfl, bits⟩
    exact ⟨grows.trans known.grows, known.sound.mono (.refl _) g₃ rfl rfl rfl, bits⟩
  · exact fun _ _ _ _ excuse => excuse

/-- An operation on the bits of two arguments of one width. -/
theorem binary_ensures {op : Op} {g : ∀ {v : ℕ}, BitVec v → BitVec v → BitVec v}
    {circuit : Bits → Bits → Terms Bits} (encodes : EncodesTerms context depth)
    (inside : t < s.size) (view : s.view t = (op, [a, c])) (grows : w.Grows b.work)
    (sound : b.work.Sound s)
    (fits : ∀ (now : Store) K sort, now.BitFits K sort op [a, c] →
      ∃ v, now.sortOf a = .bitVec v ∧ now.sortOf c = .bitVec v)
    (computes : ∀ I sort x y, op.compute I sort [x, y] = x.combine g y)
    (word : ∀ {as cs : Bits} {R : Reading} {now : Store} {v : ℕ} {x y : BitVec v},
      R.Word now as x → R.Word now cs y →
      (circuit as cs).Ensures now fun out after => R.Word after out (g x y)) :
    (do
      let x ← bits context depth a
      let y ← bits context depth c
      Attempt.build (circuit x y) : Attempt Blaster Bits).Ensures b s
      (fun out b' => BitsDone w t out b'.work) (fun e _ _ => Excuses w s t (depth + 1) sort e) := by
  have arguments : s.args t = [a, c] := congrArg Prod.snd view
  apply two_ensures encodes inside (by simp [arguments]) (by simp [arguments]) grows (.refl s) sound
  · intro L sorted _
    obtain ⟨v, first, second⟩ := fits s _ _ (sorted.of_view view).1
    exact ⟨⟨v, first⟩, v, second⟩
  · intro w' last as cs _ grown _ left right
    exact binary_bits (grown.lt_size inside) ((grown.view_eq inside).trans view) (fits last)
      computes word left right

/-- An operation on the bits of an argument. -/
theorem unary_ensures {op : Op} {g : ∀ {v : ℕ}, BitVec v → BitVec v} {circuit : Bits → Terms Bits}
    (encodes : EncodesTerms context depth) (inside : t < s.size) (view : s.view t = (op, [a]))
    (grows : w.Grows b.work) (sound : b.work.Sound s)
    (fits : ∀ (now : Store) K sort, now.BitFits K sort op [a] → ∃ v, now.sortOf a = .bitVec v)
    (computes : ∀ I sort x, op.compute I sort [x] = x.map g)
    (word : ∀ {as : Bits} {R : Reading} {now : Store} {v : ℕ} {x : BitVec v}, R.Word now as x →
      (circuit as).Ensures now fun out after => R.Word after out (g x)) :
    (do
      let x ← bits context depth a
      Attempt.build (circuit x) : Attempt Blaster Bits).Ensures b s
      (fun out b' => BitsDone w t out b'.work) (fun e _ _ => Excuses w s t (depth + 1) sort e) := by
  have arguments : s.args t = [a] := congrArg Prod.snd view
  apply one_ensures encodes inside (by simp [arguments]) grows sound
  · intro L sorted _
    exact fits s _ _ (sorted.of_view view).1
  · intro w' last as grown known
    exact unary_bits (grown.lt_size inside) ((grown.view_eq inside).trans view) (fits last)
      computes word known

/-- The heads of well-sorted bit-vectors. -/
theorem word_view {L : Constants} {v : ℕ} (sorted : s.BitSorted L t)
    (vector : s.sortOf t = .bitVec v) :
    (∃ value width, s.view t = (.bitVec value width, [])) ∨ (∃ name, s.view t = (.var name, [])) ∨
      (∃ op a, s.view t = (op, [a]) ∧
        (op = .bvNot ∨ op = .bvNeg ∨ ∃ high low, op = .bvExtract high low)) ∨
      (∃ op a c, s.view t = (op, [a, c]) ∧ (op = .bvAnd ∨ op = .bvOr ∨ op = .bvXor ∨ op = .bvAdd ∨
        op = .bvSub ∨ op = .bvMul ∨ op = .bvConcat)) ∨
      ∃ c x y, s.view t = (.ite, [c, x, y]) := by
  have fits := sorted.fits
  have view : s.view t = (s.op t, s.args t) := rfl
  rw [vector] at fits
  rw [view]
  revert fits
  unfold Store.BitFits
  split <;> intro fits
  case h_2 | h_3 | h_9 | h_12 | h_13 | h_21 => simp_all
  case h_14 | h_15 | h_16 | h_17 | h_18 | h_19 | h_20 => simp_all
  case h_1 => cases fits
  case h_26 => exact fits.elim
  all_goals cases fits.1

/-- One level more of bits. -/
theorem bits_succ (terms : EncodesTerms context depth) (formulas : EncodesFormulas context depth) :
    EncodesTerms context (depth + 1) := by
  intro t b s inside sound
  rw [bits]
  refine ensures_get_bind ?_
  split
  · next out found =>
    refine ensures_pure ⟨.refl _, sound, fun outside => ?_⟩
    rw [scope, outside] at found
    exact (sound.terms t out found).2
  refine ensures_bind (step_ensures.imp (fun _ _ _ _ result => result)
    fun e _ _ _ interrupt _ _ _ _ => interrupt) ?_
  rintro _ b₁ s _ ⟨rfl, rfl⟩
  refine ensures_read_bind ?_
  dsimp only
  have grows : b.work.Grows { b.work with steps := b.work.steps + 1 } :=
    ⟨fun _ member => member, fun _ member => member, rfl⟩
  have sound : { b.work with steps := b.work.steps + 1 }.Sound s :=
    sound.mono grows (.refl s) rfl rfl rfl
  have finish : ∀ (out : Bits) (b' : Blaster) (after : Store), s.Extends after →
      BitsDone b.work t out b'.work after →
      (do rememberTerm t out; pure out : Attempt Blaster Bits).Ensures b' after
        (fun out b' => BitsDone b.work t out b'.work) (fun e _ _ => Excuses b.work s t (depth + 1)
          (∃ width, s.sortOf t = .bitVec width) e) :=
    fun out b' after grown done => remember_bits (grown.lt_size inside) done
  split
  · next value width args view =>
    refine ensures_pure_bind (finish _ _ s (.refl s) ⟨grows, sound, fun _ => ?_⟩)
    intro L sorted truth v z datum
    rw [(sorted.of_view view).2.2, Op.compute] at datum
    obtain ⟨rfl, same⟩ := Datum.word.inj datum
    exact eq_of_heq same ▸ Circuit.ofNat_word value
  · next name args view =>
    have var : s.op t = .var name := congrArg Prod.fst view
    exact ensures_bind (constantBits_ensures (b := { b with work := _ }) sound var
      fun e absent _ _ _ vector => absurd vector.choose_spec (absent _)) fun out b' after grown done =>
      finish out b' after grown ⟨grows.trans done.grows, done.sound,
        fun outside => done.bits (grows.inner_eq_nil outside)⟩
  · next a view =>
    rw [← bind_assoc]
    exact ensures_bind (unary_ensures terms inside view grows sound
      (fun _ _ _ known => known.imp fun _ both => both.2) (fun _ _ _ => rfl) Circuit.not_word) finish
  · next a c view =>
    exact ensures_bind (binary_ensures terms inside view grows sound
      (fun _ _ _ known => known.imp fun _ all => all.2) (fun _ _ _ _ => rfl) Circuit.and_word) finish
  · next a c view =>
    exact ensures_bind (binary_ensures terms inside view grows sound
      (fun _ _ _ known => known.imp fun _ all => all.2) (fun _ _ _ _ => rfl) Circuit.or_word) finish
  · next a c view =>
    exact ensures_bind (binary_ensures terms inside view grows sound
      (fun _ _ _ known => known.imp fun _ all => all.2) (fun _ _ _ _ => rfl) Circuit.xor_word) finish
  · next a view =>
    rw [← bind_assoc]
    exact ensures_bind (unary_ensures terms inside view grows sound
      (fun _ _ _ known => known.imp fun _ both => both.2) (fun _ _ _ => rfl) Circuit.neg_word) finish
  · next a c view =>
    exact ensures_bind (binary_ensures terms inside view grows sound
      (fun _ _ _ known => known.imp fun _ all => all.2) (fun _ _ _ _ => rfl) Circuit.add_word) finish
  · next a c view =>
    exact ensures_bind (binary_ensures terms inside view grows sound
      (fun _ _ _ known => known.imp fun _ all => all.2) (fun _ _ _ _ => rfl) Circuit.sub_word) finish
  · next a c view =>
    exact ensures_bind (binary_ensures terms inside view grows sound
      (fun _ _ _ known => known.imp fun _ all => all.2) (fun _ _ _ _ => rfl) Circuit.mul_word) finish
  · next high low view =>
    have arguments : s.args t = [high, low] := congrArg Prod.snd view
    refine ensures_bind (two_ensures terms inside (by simp [arguments]) (by simp [arguments]) grows
      (.refl s) sound (fun L sorted _ => ?_)
      fun w' last as cs _ grown _ left right => ?_) finish
    · obtain ⟨v, u, _, first, second⟩ := (sorted.of_view view).1
      exact ⟨⟨u, second⟩, v, first⟩
    · exact concat_bits (grown.lt_size inside) ((grown.view_eq inside).trans view) right left
  · next high low a view =>
    have arguments : s.args t = [a] := congrArg Prod.snd view
    refine ensures_bind (terms.arg inside (by simp [arguments]) grows (.refl s) sound
      fun L sorted _ => ?_) fun as b₁ s₁ g₁ known => ?_
    · obtain ⟨v, _, vector, _⟩ := (sorted.of_view view).1
      exact ⟨v, vector⟩
    · split_ifs with enough
      · refine ensures_pure_bind (finish _ _ s₁ g₁ ⟨grows.trans known.grows, known.sound,
          fun outside => ?_⟩)
        exact extract_bits ((g₁.view_eq inside).trans view)
          (known.bits (grows.inner_eq_nil outside))
      · apply ensures_throw_bind
        rintro outside ⟨L, sorted⟩ - -
        obtain ⟨⟨v, _, vector, _, small⟩, args, _⟩ := sorted.of_view view
        have there : a < s.size := (args a (by simp)).inside
        obtain ⟨x, datum⟩ := (args a (by simp)).datum_word (I := ofBits fun _ => false) vector
        rw [← g₁.datum_eq _ there] at datum
        have word := known.bits (grows.inner_eq_nil outside) L ((args a (by simp)).mono g₁) _ v x
          datum
        have length := word.length_eq
        rw [length_digits] at length
        omega
  · next c x y view =>
    have arguments : s.args t = [c, x, y] := congrArg Prod.snd view
    refine ensures_bind (formulas.arg inside (by simp [arguments]) grows (.refl s) sound)
      fun condition b₁ s₁ g₁ chosen => ?_
    refine ensures_bind (two_ensures terms inside (by simp [arguments]) (by simp [arguments])
      (grows.trans chosen.grows) g₁ chosen.sound (fun L sorted vector => ?_)
      fun w' last as cs further grown outside left right => ?_) fun out b' after g₂ done =>
        finish out b' after (g₁.trans g₂) done
    · obtain ⟨width, vector⟩ := vector
      obtain ⟨_, first, second⟩ := (sorted.of_view view).1
      exact ⟨⟨width, first.trans vector⟩, width, second.trans vector⟩
    · have there : c < s₁.size :=
        g₁.lt_size ((Store.lt_of_mem_args (arguments ▸ List.mem_cons_self ..)).trans inside)
      exact ite_bits ((g₁.trans grown).lt_size inside)
        (((g₁.trans grown).view_eq inside).trans view)
        ((chosen.bit (grows.inner_eq_nil outside)).mono there further grown) left right
  · next function args view =>
    have unsorted : ∀ L, ¬s.BitSorted L t := fun L sorted => (sorted.of_view view).1
    refine ensures_bind (applicationBits_ensures (b := { b with work := _ }) sound inside unsorted
      fun e _ known _ _ => absurd known.choose_spec (unsorted _)) fun out b' after grown done => ?_
    exact finish out b' after grown ⟨grows.trans done.grows, done.sound,
      fun outside => done.bits (grows.inner_eq_nil outside)⟩
  · next literal var flip and or xor negate add sub mul concat part choice _ =>
    apply ensures_throw_bind
    rintro - ⟨L, sorted⟩ - ⟨v, vector⟩
    obtain ⟨_, _, view⟩ | ⟨_, view⟩ | ⟨_, _, view, head⟩ | ⟨_, _, _, view, head⟩ | ⟨_, _, _, view⟩ :=
      word_view sorted vector
    · exact (literal _ _ _ view).elim
    · exact (var _ _ view).elim
    · obtain rfl | rfl | ⟨_, _, rfl⟩ := head
      · exact (flip _ view).elim
      · exact (negate _ view).elim
      · exact (part _ _ _ view).elim
    · obtain rfl | rfl | rfl | rfl | rfl | rfl | rfl := head
      · exact (and _ _ view).elim
      · exact (or _ _ view).elim
      · exact (xor _ _ view).elim
      · exact (add _ _ view).elim
      · exact (sub _ _ view).elim
      · exact (mul _ _ view).elim
      · exact (concat _ _ view).elim
    · exact (choice _ _ _ view).elim

/-- Attempts on the arguments of a term, one after the other. -/
theorem args_ensures {α : Type} {visit : TermId → Attempt Blaster α} (inside : t < s.size)
    (Known : BlastWork → Store → TermId → α → Prop)
    (lasting : ∀ a x w w' before after, a < before.size → w.Grows w' →
      before.Extends after → Known w before a x → Known w' after a x)
    (sound : b.work.Sound s) {bad : Error → Blaster → Store → Prop}
    (each : ∀ a ∈ s.args t, ∀ (b' : Blaster) (now : Store), b.work.Grows b'.work → s.Extends now →
      b'.work.Sound now → (visit a).Ensures b' now (fun x b'' after => b'.work.Grows b''.work ∧
        b''.work.Sound after ∧ (b.work.inner = [] → Known b''.work after a x)) bad) :
    ((s.args t).mapM visit).Ensures b s (fun found b' after => b.work.Grows b'.work ∧
      b'.work.Sound after ∧
        (b.work.inner = [] → List.Forall₂ (Known b'.work after) (s.args t) found)) bad := by
  have all : ((s.args t).mapM visit).Ensures b s (fun found b' after => b.work.Grows b'.work ∧
      b'.work.Sound after ∧ List.Forall₂ (fun a x => a < after.size ∧
        (b.work.inner = [] → Known b'.work after a x)) (s.args t) found) bad :=
    ensures_mapM_leads (L := fun x y => x.work.Grows y.work) (P := fun x now => x.work.Sound now)
      (R := fun x now a y => a < now.size ∧ (b.work.inner = [] → Known x.work now a y))
      (fun x => .refl x.work) (fun x y z first second => first.trans second)
      (fun a x b₁ b₂ before after grows grown known => ⟨grown.lt_size known.1, fun outside =>
        lasting a x _ _ before after known.1 grows grown (known.2 outside)⟩) (s.args t) sound
      fun a member b' now grown grows sound => (each a member b' now grows grown sound).imp
        (fun x b'' after more known => ⟨known.1, known.2.1,
          (grown.trans more).lt_size ((Store.lt_of_mem_args member).trans inside), known.2.2⟩)
        fun _ _ _ _ failure => failure
  apply all.imp
  · rintro found b' after _ ⟨grows, sound, known⟩
    exact ⟨grows, sound, fun outside => known.imp fun _ _ each => each.2 outside⟩
  · exact fun _ _ _ _ failure => failure

/-- Encode a quantifier, which is not well-sorted without quantifiers. -/
theorem quantifier_ensures {vars : List Binder} {body : TermId}
    {make : List Binder → TermId → Terms TermId} {bad : Error → Blaster → Store → Prop}
    (encodes : EncodesFormulas context depth) (inside : f < s.size) (member : body ∈ s.args f)
    (unsorted : ∀ L, ¬s.BitSorted L f) (failed : ∀ e b' after, bad e b' after)
    (sound : b.work.Sound s) :
    (quantifier f vars (formula context depth body) make).Ensures b s
      (fun encoding b' => FormulaDone b.work f encoding b'.work) bad := by
  have there := (Store.lt_of_mem_args member).trans inside
  have vacuous : ∀ (w : BlastWork) (after : Store) (u : TermId), s.Extends after →
      w.FormulaBit after f u := fun w after u grown L sorted =>
    absurd (sorted.of_extends grown inside) (unsorted L)
  unfold quantifier
  refine ensures_get_bind ?_
  split_ifs
  · refine ensures_bind ensures_build_any ?_
    rintro ⟨binders, bound⟩ b s₁ g₁ rfl
    refine ensures_modify_bind ?_
    obtain ⟨config, stats, work⟩ := b
    have sound : work.Sound s₁ := sound.mono (.refl work) g₁ rfl rfl rfl
    apply ensures_bind ((encodes body ⟨config, stats, { work with inner := { bound } :: work.inner }⟩
      s₁ (g₁.lt_size there) (sound.with_inner _)).imp (fun _ _ _ _ done => done)
      fun e _ _ _ _ => failed e _ _)
    rintro encoding ⟨config, stats, inner⟩ s₂ g₂ ⟨grows, sound, -⟩
    -- As many quantifiers are around as before the quantifier was entered.
    have left : work.Grows { inner with inner := inner.inner.drop 1 } := by
      refine ⟨grows.constants, grows.kept, ?_⟩
      have scopes : inner.inner.length = work.inner.length + 1 := grows.scopes
      simp [scopes]
    have sound : Sound { inner with inner := inner.inner.drop 1 } s₂ := sound.with_inner _
    have outside : leave.Ensures ⟨config, stats, inner⟩ s₂ (fun _ b' after => after = s₂ ∧
        b'.work = { inner with inner := inner.inner.drop 1 }) bad := ⟨rfl, rfl⟩
    refine ensures_bind outside ?_
    rintro escaped b' s₂ _ ⟨rfl, same⟩
    rw [← same] at left sound
    split_ifs
    · refine ensures_bind keep_ensures ?_
      rintro _ b'' _ _ ⟨rfl, kept⟩
      have done := keep_done (f := f) sound
      rw [← kept] at done
      exact ensures_pure ⟨left.trans done.grows, done.sound, fun _ => vacuous _ _ _ (g₁.trans g₂)⟩
    · have built : (Attempt.build (make binders encoding)).Ensures b' s₂
          (fun _ b'' _ => b'' = b') bad := ensures_build_any
      apply built.imp
      · rintro u b'' last g₃ rfl
        exact ⟨left, sound.mono (.refl _) g₃ rfl rfl rfl,
          fun _ => vacuous _ _ _ ((g₁.trans g₂).trans g₃)⟩
      · exact fun e _ _ _ _ => failed e _ _
  · exact keepAtom_ensures sound

/-- A connective stays one. -/
theorem isConnective_mono (inside : f < s.size) (grown : s.Extends now)
    (connective : isConnective s f) : isConnective now f := by
  unfold isConnective at connective ⊢
  rw [grown.view_eq inside]
  revert connective
  split <;> intro connective
  case h_6 =>
    unfold Store.isBool at connective ⊢
    rwa [grown.sortOf_eq inside]
  case h_7 a rest view =>
    have arguments : s.args f = a :: rest := congrArg Prod.snd view
    have before := Store.lt_of_mem_args (arguments ▸ List.mem_cons_self ..)
    unfold Store.isBool at connective ⊢
    rwa [grown.sortOf_eq (before.trans inside)]
  all_goals exact connective

/-- The circuits of predicates on two vectors. -/
inductive PairCircuit : Op → AtomCircuit → Prop
  | eq : PairCircuit .eq (onTwo Circuit.eq)
  | ult : PairCircuit .bvUlt (onTwo Circuit.ult)
  | ule : PairCircuit .bvUle (notConverse Circuit.ult)
  | slt : PairCircuit .bvSlt (onTwo Circuit.slt)
  | sle : PairCircuit .bvSle (notConverse Circuit.slt)

/-- A well-sorted atom on bit-vectors compares two of them, or any number for difference. -/
theorem atom_cases {L : Constants} {circuit : AtomCircuit} (sorted : s.BitSorted L f)
    (found : atomCircuit? s f = some circuit) :
    (∃ op a c v, s.view f = (op, [a, c]) ∧ s.sortOf a = .bitVec v ∧ s.sortOf c = .bitVec v ∧
      PairCircuit op circuit) ∨
    ∃ args v, s.view f = (.distinct, args) ∧ (∀ a ∈ args, s.sortOf a = .bitVec v) ∧
      circuit = Circuit.distinct := by
  unfold atomCircuit? at found
  obtain ⟨op, args, view⟩ : ∃ op args, s.view f = (op, args) := ⟨_, _, rfl⟩
  obtain ⟨fits, -, -⟩ := sorted.of_view view
  rw [view] at found ⊢
  dsimp only at found
  clear view
  -- The two sides of a comparison.
  have compared : ∀ {op' : Op}, PairCircuit op' circuit → op = op' →
      (∃ a c v, args = [a, c] ∧ s.sortOf a = .bitVec v ∧ s.sortOf c = .bitVec v) →
      ∃ op' a c v, (op, args) = (op', [a, c]) ∧ s.sortOf a = .bitVec v ∧
        s.sortOf c = .bitVec v ∧ PairCircuit op' circuit := by
    rintro op' kind rfl ⟨a, c, v, rfl, first, second⟩
    exact ⟨op, a, c, v, rfl, first, second, kind⟩
  split at found
  · split_ifs at found with vector
    obtain rfl := Option.some.inj found
    refine .inl (compared .eq rfl ?_)
    match args, fits with
    | [a, c], ⟨_, same⟩ =>
      obtain ⟨v, width⟩ := Option.isSome_iff_exists.mp vector
      have first : s.sortOf a = .bitVec v := TermSort.eq_bitVec width
      exact ⟨a, c, v, rfl, first, same.trans first⟩
  · split_ifs at found with vector
    obtain rfl := Option.some.inj found
    match args, fits with
    | a :: rest, ⟨_, same⟩ =>
      obtain ⟨v, width⟩ := Option.isSome_iff_exists.mp vector
      have first : s.sortOf a = .bitVec v := TermSort.eq_bitVec width
      exact .inr ⟨a :: rest, v, rfl, fun c member => (same c member a (by simp)).trans first, rfl⟩
  · obtain rfl := Option.some.inj found
    match args, fits with
    | [a, c], ⟨_, v, first, second⟩ => exact .inl (compared .ult rfl ⟨a, c, v, rfl, first, second⟩)
  · obtain rfl := Option.some.inj found
    match args, fits with
    | [a, c], ⟨_, v, first, second⟩ => exact .inl (compared .ule rfl ⟨a, c, v, rfl, first, second⟩)
  · obtain rfl := Option.some.inj found
    match args, fits with
    | [a, c], ⟨_, v, first, second⟩ => exact .inl (compared .slt rfl ⟨a, c, v, rfl, first, second⟩)
  · obtain rfl := Option.some.inj found
    match args, fits with
    | [a, c], ⟨_, v, first, second⟩ => exact .inl (compared .sle rfl ⟨a, c, v, rfl, first, second⟩)
  · cases found

/-- A well-sorted atom on bit-vectors has bit-vectors as arguments. -/
theorem atom_vectors {L : Constants} {circuit : AtomCircuit} (sorted : s.BitSorted L f)
    (found : atomCircuit? s f = some circuit) (member : a ∈ s.args f) :
    ∃ v, s.sortOf a = .bitVec v := by
  obtain ⟨_, x, y, v, view, first, second, _⟩ | ⟨args, v, view, vectors, _⟩ :=
    atom_cases sorted found
  · have arguments : s.args f = [x, y] := congrArg Prod.snd view
    rw [arguments, List.mem_pair] at member
    obtain rfl | rfl := member
    · exact ⟨v, first⟩
    · exact ⟨v, second⟩
  · have arguments : s.args f = args := congrArg Prod.snd view
    exact ⟨v, vectors a (arguments ▸ member)⟩

/-- The negated converse of a comparison computes the comparison that it negates. -/
theorem notConverse_bit {circuit : Bits → Bits → Terms TermId} {R : Reading} {as cs : Bits} {p : Bool}
    (compared : (circuit cs as).Ensures s fun u after => R.Bit after u p) :
    (notConverse circuit [as, cs]).Ensures s fun u after => R.Bit after u (!p) :=
  Terms.ensures_bind compared fun _ _ _ bit => Gate.not_bit bit

/-- The circuit of a comparison encodes it. -/
theorem pair_bit {op : Op} {circuit : AtomCircuit} {as cs : Bits} {v : ℕ} (inside : f < s.size)
    (view : s.view f = (op, [a, c])) (first : s.sortOf a = .bitVec v)
    (second : s.sortOf c = .bitVec v) (kind : PairCircuit op circuit) (left : w.TermBits s a as)
    (right : w.TermBits s c cs) :
    (circuit [as, cs]).Ensures s fun u after => w.FormulaBit after f u := by
  cases kind with
  | eq =>
    exact binary_bit (fun x y => decide (x = y)) Circuit.eq inside view
      (fun _ _ _ => ⟨v, first, second⟩) (by simp [Op.compute]) Circuit.eq_word left right
  | ult =>
    exact binary_bit BitVec.ult Circuit.ult inside view
      (fun _ _ _ => ⟨v, first, second⟩) (by simp [Op.compute]) Circuit.ult_word left right
  | ule =>
    refine binary_bit BitVec.ule (fun x y => notConverse Circuit.ult [x, y])
      inside view (fun _ _ _ => ⟨v, first, second⟩) (by simp [Op.compute]) ?_ left right
    intro R now v x y bitsLeft bitsRight
    rw [BitVec.ule_eq_not_ult]
    exact notConverse_bit (Circuit.ult_word bitsRight bitsLeft)
  | slt =>
    exact binary_bit BitVec.slt Circuit.slt inside view
      (fun _ _ _ => ⟨v, first, second⟩) (by simp [Op.compute]) Circuit.slt_word left right
  | sle =>
    refine binary_bit BitVec.sle (fun x y => notConverse Circuit.slt [x, y])
      inside view (fun _ _ _ => ⟨v, first, second⟩) (by simp [Op.compute]) ?_ left right
    intro R now v x y bitsLeft bitsRight
    rw [BitVec.sle_eq_not_slt]
    exact notConverse_bit (Circuit.slt_word bitsRight bitsLeft)

/-- The circuit of an atom over the bits of its arguments encodes it. -/
theorem atom_bit {circuit : AtomCircuit} {vectors : List Bits}
    (found : atomCircuit? s f = some circuit) (inside : f < s.size) (grown : s.Extends now)
    (known : List.Forall₂ (w.TermBits now) (s.args f) vectors) :
    (circuit vectors).Ensures now fun u after => w.FormulaBit after f u := by
  by_cases sorted : ∃ L, s.BitSorted L f
  · obtain ⟨L, sorted⟩ := sorted
    have there : ∀ a ∈ s.args f, a < s.size := fun a member => (sorted.of_mem_args member).inside
    obtain ⟨op, x, y, v, view, first, second, kind⟩ | ⟨args, v, view, vector, rfl⟩ :=
      atom_cases sorted found
    · have arguments : s.args f = [x, y] := congrArg Prod.snd view
      rw [arguments] at known there
      match vectors, known with
      | [as, cs], .cons left (.cons right .nil) =>
        exact pair_bit (grown.lt_size inside) ((grown.view_eq inside).trans view)
          ((grown.sortOf_eq (there x (by simp))).trans first)
          ((grown.sortOf_eq (there y (by simp))).trans second) kind left right
    · have arguments : s.args f = args := congrArg Prod.snd view
      rw [arguments] at known there
      exact distinct_bit (grown.lt_size inside) ((grown.view_eq inside).trans view)
        (fun a member => (grown.sortOf_eq (there a member)).trans (vector a member)) known
  · apply formulaBit_of_circuit (grown.lt_size inside)
    intro L later
    exact absurd ⟨L, later.of_extends grown inside⟩ sorted

/-- One level more of formulas. -/
theorem formula_succ (terms : EncodesTerms context depth)
    (formulas : EncodesFormulas context depth) : EncodesFormulas context (depth + 1) := by
  intro f b s inside sound
  rw [formula]
  refine ensures_get_bind ?_
  split
  · next encoding found =>
    refine ensures_pure ⟨.refl _, sound, fun outside => ?_⟩
    rw [scope, outside] at found
    exact (sound.formulas f encoding found).2
  refine ensures_bind (step_ensures.imp (fun _ _ _ _ result => result)
    fun e _ _ _ interrupt _ _ _ _ => interrupt) ?_
  rintro _ b₁ s _ ⟨rfl, rfl⟩
  refine ensures_read_bind ?_
  dsimp only
  have grows : b.work.Grows { b.work with steps := b.work.steps + 1 } :=
    ⟨fun _ member => member, fun _ member => member, rfl⟩
  have sound : { b.work with steps := b.work.steps + 1 }.Sound s :=
    sound.mono grows (.refl s) rfl rfl rfl
  have finish : ∀ (encoding : TermId) (b' : Blaster) (after : Store), s.Extends after →
      FormulaDone b.work f encoding b'.work after →
      (do rememberFormula f encoding; pure encoding : Attempt Blaster TermId).Ensures b' after
        (fun encoding b' => FormulaDone b.work f encoding b'.work)
        (fun e _ _ => Excuses b.work s f (depth + 1) True e) :=
    fun encoding b' after grown done => remember_formula (grown.lt_size inside) done
  split_ifs with connective
  · refine ensures_bind (args_ensures (b := { b with work := _ }) inside
      (fun w now a u => w.FormulaBit now a u)
      (fun a u w w' before after there grows grown known => known.mono there grows grown)
      sound fun a member b' now more grown sound => ?_) fun args b₁ s₁ g₁ known => ?_
    · apply (formulas.arg inside member (grows.trans more) grown sound).imp
      · exact fun u b'' after _ done => ⟨done.grows, done.sound, fun outside =>
          done.bit (more.inner_eq_nil outside)⟩
      · exact fun _ _ _ _ excuse => excuse
    · obtain ⟨more, sound, known⟩ := known
      have rebuilt : (Terms.rebuild f args).Ensures s₁ fun u after =>
          b.work.inner = [] → b₁.work.FormulaBit after f u := by
        intro outside
        apply connective_bit (g₁.lt_size inside) (isConnective_mono inside g₁ connective)
        rw [g₁.args_eq inside]
        exact known (grows.inner_eq_nil outside)
      refine ensures_bind (ensures_build rebuilt) ?_
      rintro u b₁ s₂ g₂ ⟨rfl, bit⟩
      exact finish u b₁ s₂ (g₁.trans g₂) ⟨grows.trans more, sound.mono (.refl _) g₂ rfl rfl rfl, bit⟩
  · split
    · next circuit op args found view =>
      obtain rfl : s.args f = args := congrArg Prod.snd view
      refine ensures_bind (supportsAll_ensures (b := { b with work := _ }) sound) ?_
      rintro supported b₁ s _ ⟨rfl, sound, more⟩
      split_ifs
      · refine ensures_bind (args_ensures inside
          (fun w now a u => w.TermBits now a u)
          (fun a u w w' before after there grows grown known => known.mono there grows grown)
          sound fun a member b' now further grown sound => ?_) fun vectors b₂ s₂ g₂ known => ?_
        · apply (terms.arg inside member ((grows.trans more).trans further) grown sound
            fun L sorted _ => ?_).imp
          · exact fun u b'' after _ done => ⟨done.grows, done.sound, fun outside =>
              done.bits (further.inner_eq_nil outside)⟩
          · exact fun _ _ _ _ excuse => excuse
          · exact atom_vectors sorted found member
        · obtain ⟨further, sound, known⟩ := known
          refine ensures_modify_bind ?_
          have built : (circuit vectors).Ensures s₂ fun u after =>
              b.work.inner = [] → b₂.work.FormulaBit after f u := by
            intro outside
            exact atom_bit found inside g₂ (known ((grows.trans more).inner_eq_nil outside))
          refine ensures_bind (ensures_build built) ?_
          rintro u b₃ s₃ g₃ ⟨rfl, bit⟩
          exact finish u _ s₃ (g₂.trans g₃) ⟨(grows.trans more).trans further,
            sound.mono (.refl _) g₃ rfl rfl rfl, bit⟩
      · exact ensures_bind (keepAtom_ensures sound) fun u b₂ s₂ g₂ done =>
          finish u b₂ s₂ g₂ ⟨(grows.trans more).trans done.grows, done.sound,
            fun outside => done.bit ((grows.trans more).inner_eq_nil outside)⟩
    · next vars body _ view =>
      have unsorted : ∀ L, ¬s.BitSorted L f := fun L sorted => (sorted.of_view view).1
      have arguments : s.args f = [body] := congrArg Prod.snd view
      refine ensures_bind (quantifier_ensures (b := { b with work := _ }) formulas inside
        (by simp [arguments]) unsorted (fun e _ _ _ ⟨L, sorted⟩ => absurd sorted (unsorted L))
        sound) fun u b₂ s₂ g₂ done => ?_
      exact finish u b₂ s₂ g₂ ⟨grows.trans done.grows, done.sound,
        fun outside => done.bit (grows.inner_eq_nil outside)⟩
    · next vars body _ view =>
      have unsorted : ∀ L, ¬s.BitSorted L f := fun L sorted => (sorted.of_view view).1
      have arguments : s.args f = [body] := congrArg Prod.snd view
      refine ensures_bind (quantifier_ensures (b := { b with work := _ }) formulas inside
        (by simp [arguments]) unsorted (fun e _ _ _ ⟨L, sorted⟩ => absurd sorted (unsorted L))
        sound) fun u b₂ s₂ g₂ done => ?_
      exact finish u b₂ s₂ g₂ ⟨grows.trans done.grows, done.sound,
        fun outside => done.bit (grows.inner_eq_nil outside)⟩
    · refine ensures_bind keep_ensures ?_
      rintro _ b' s _ ⟨rfl, kept⟩
      have done := keep_done (f := f) sound
      refine ensures_pure_bind (finish f b' s (.refl s) ?_)
      rw [kept]
      exact ⟨grows.trans done.grows, done.sound, fun outside =>
        done.bit (grows.inner_eq_nil outside)⟩

/-- Bits and encodings are correct down to every depth. -/
theorem encodes (context : Context) (depth : ℕ) :
    EncodesTerms context depth ∧ EncodesFormulas context depth := by
  induction depth with
  | zero =>
    constructor
    · intro t b s _ _
      rw [bits]
      exact ensures_throw fun _ _ deep => absurd deep (Nat.not_lt_zero t)
    · intro f b s _ _
      rw [formula]
      exact ensures_throw fun _ _ deep => absurd deep (Nat.not_lt_zero f)
  | succ depth both => exact ⟨bits_succ both.1 both.2, formula_succ both.1 both.2⟩

end Runs

/-- The bit-blasters that there can be beside a store: one that has forgotten what it did before,
and from there on by encoding any terms in any circumstances, while other computations add terms. -/
inductive Reachable : Blaster → Store → Prop
  /-- A bit-blaster that knows nothing. -/
  | start (config : BlastConfig) (stats : BlastStats) (s : Store) : Reachable { config, stats } s
  /-- Terms are added. -/
  | grow {b : Blaster} {s after : Store} (before : Reachable b s) (grown : s.Extends after) :
    Reachable b after
  /-- The bits of a term are asked for. -/
  | bits {b b' : Blaster} {s after : Store} {context : Context} {depth : ℕ} {t : TermId}
    {out : Bits} (before : Reachable b s) (inside : t < s.size)
    (run : ((bits context depth t).runFrom b).run s = ((.ok out, b'), after)) : Reachable b' after
  /-- A formula is encoded. -/
  | formula {b b' : Blaster} {s after : Store} {context : Context} {depth : ℕ} {f g : TermId}
    (before : Reachable b s) (inside : f < s.size)
    (run : ((formula context depth f).runFrom b).run s = ((.ok g, b'), after)) : Reachable b' after

/-- Every bit-blaster knows correct encodings only and stands outside of all quantifiers. -/
theorem Reachable.sound (reachable : b.Reachable s) : b.work.Sound s ∧ b.work.inner = [] := by
  induction reachable with
  | start config stats s => exact ⟨sound_empty s, rfl⟩
  | grow _ grown known => exact ⟨known.1.mono (.refl _) grown rfl rfl rfl, known.2⟩
  | @bits b b' s after context depth t out _ inside run known =>
    have done := ((encodes context depth).1 t b s inside known.1).of_ok run
    exact ⟨done.sound, done.grows.inner_eq_nil known.2⟩
  | @formula b b' s after context depth f g _ inside run known =>
    have done := ((encodes context depth).2 f b s inside known.1).of_ok run
    exact ⟨done.sound, done.grows.inner_eq_nil known.2⟩

/-- In every assignment in which bit-vector constants have the values of their bits, the encoding
of a well-sorted formula has the value of the formula, and the bits of a well-sorted bit-vector are
those of its value, the least significant first and as many as its width. They are found unless
the run is interrupted. -/
theorem encoding_correct (reachable : b.Reachable s) (sorted : s.BitSorted .all t)
    (truth : String → Bool) :
    (∀ g b' after, ((formula context depth t).runFrom b).run s = ((.ok g, b'), after) →
      s.sortOf t = .bool → after.BitSorted .all g ∧ after.sortOf g = .bool ∧
        after.datum (ofBits truth) g = s.datum (ofBits truth) t) ∧
    ∀ width, s.sortOf t = .bitVec width → ∃ x : BitVec width,
      s.datum (ofBits truth) t = .word width x ∧
      (∀ out b' after, ((bits context depth t).runFrom b).run s = ((.ok out, b'), after) →
        out.length = width ∧ out.map (after.datum (ofBits truth)) =
          (List.range width).map fun i => .truth (x.getLsbD i)) ∧
      ∀ e b' after, ((bits context depth t).runFrom b).run s = ((.error e, b'), after) →
        t < depth → e.isInterrupt := by
  obtain ⟨sound, outside⟩ := reachable.sound
  obtain ⟨terms, formulas⟩ := encodes context depth
  constructor
  · intro g b' after run bool
    have grown : s.Extends after := by
      have grows := ((formula context depth t).runFrom b).grows s
      rwa [run] at grows
    have done := (formulas t b s sorted.inside sound).of_ok run
    have value := sorted.datum_truth (I := ofBits truth) bool
    rw [← grown.datum_eq _ sorted.inside] at value ⊢
    have bit := done.bit outside .all (sorted.mono grown) truth _ value
    exact ⟨bit.sorted.widen fun _ _ _ => trivial, bit.sort_eq, bit.datum_eq.trans value.symm⟩
  · intro width vector
    obtain ⟨x, value⟩ := sorted.datum_word (I := ofBits truth) vector
    refine ⟨x, value, fun out b' after run => ?_, fun e b' after run deep => ?_⟩
    · have grown : s.Extends after := by
        have grows := ((bits context depth t).runFrom b).grows s
        rwa [run] at grows
      have done := (terms t b s sorted.inside sound).of_ok run
      rw [← grown.datum_eq _ sorted.inside] at value
      have word := done.bits outside .all (sorted.mono grown) truth width x value
      refine ⟨by simpa using word.length_eq, (Store.Computes.map_datum word).trans ?_⟩
      rw [digits, List.map_map]
      rfl
    · exact (terms t b s sorted.inside sound).of_error run outside ⟨.all, sorted⟩ deep
        ⟨width, vector⟩

section Comparison

variable {x y : TermId} {name other : String} {width : ℕ}

/-- What a run without interrupts needs: the default choices, and few steps so far. -/
structure Fresh (b : Blaster) (steps : ℕ) : Prop where
  config : b.config = {}
  steps : b.work.steps ≤ steps

/-- A step that nothing interrupts. -/
theorem step_passes {steps : ℕ} (fresh : Fresh b steps) (few : steps < 1000) :
    (step .unbounded).Ensures b s (fun _ b' after => after = s ∧ Fresh b' (steps + 1))
      fun _ _ _ => False := by
  have limit : b.config.maxSteps = 18446744073709551615 := by rw [fresh.config]
  have memory : b.config.memoryLimit? = none := by rw [fresh.config]; rfl
  have counted : ¬b.config.maxSteps < b.work.steps + 1 := by
    rw [limit]
    have := fresh.steps
    omega
  unfold step
  refine ensures_modify_bind (ensures_get_bind ?_)
  dsimp only
  rw [if_neg counted]
  split_ifs
  · unfold checkMemory
    simp only [bind_assoc]
    refine ensures_get_bind ?_
    dsimp only
    rw [memory]
    refine ensures_pure_bind (ensures_read_bind (ensures_pure ⟨rfl, fresh.config, ?_⟩))
    exact Nat.succ_le_succ fresh.steps
  · exact ensures_pure ⟨rfl, fresh.config, Nat.succ_le_succ fresh.steps⟩

/-- The bits of a constant are found, if nothing interrupts. -/
theorem bits_constant (depth : ℕ) {steps : ℕ} (constant : s.nodes[x]? = some ⟨.var name, [], .bitVec width⟩)
    (fresh : Fresh b steps) (few : steps < 1000) :
    (bits .unbounded (depth + 1) x).Ensures b s
      (fun _ b' _ => Fresh b' (steps + 1)) fun _ _ _ => False := by
  obtain ⟨_, node⟩ := Store.node_of_getElem? constant
  have view : s.view x = (.var name, []) := by rw [Store.view, node]
  have named : s.varName? x = some name := by rw [Store.varName?, Store.op, node]
  have sized : (s.sortOf x).width? = some width := by rw [Store.sortOf, node]; rfl
  rw [bits]
  refine ensures_get_bind ?_
  split
  · exact ensures_pure ⟨fresh.config, Nat.le_succ_of_le fresh.steps⟩
  refine ensures_bind (step_passes fresh few) ?_
  rintro _ b s _ ⟨rfl, fresh⟩
  refine ensures_read_bind ?_
  dsimp only
  rw [view]
  have found : (constantBits x).Ensures b s (fun _ b' _ => Fresh b' (steps + 1))
      fun _ _ _ => False := by
    unfold constantBits
    refine ensures_get_bind ?_
    dsimp only
    split
    · exact ensures_pure fresh
    · refine ensures_read_bind ?_
      rw [named, sized]
      refine ensures_bind ensures_build_any ?_
      rintro _ b _ _ rfl
      exact ensures_modify_bind (ensures_pure ⟨fresh.config, fresh.steps⟩)
  refine ensures_bind found fun _ b' _ _ fresh =>
    ensures_modify_bind (ensures_pure ⟨fresh.config, ?_⟩)
  obtain ⟨config, stats, ⟨constants, applications, kept, support, outer, inner, steps⟩⟩ := b'
  cases inner <;> exact fresh.steps

/-- A comparison of constants is encoded, if nothing interrupts. -/
theorem formula_comparison (depth : ℕ) {steps : ℕ}
    (first : s.nodes[x]? = some ⟨.var name, [], .bitVec width⟩)
    (second : s.nodes[y]? = some ⟨.var other, [], .bitVec width⟩)
    (whole : s.nodes[f]? = some ⟨.bvUlt, [x, y], .bool⟩) (fresh : Fresh b steps)
    (few : steps < 100) :
    (formula .unbounded (depth + 2) f).Ensures b s (fun _ _ _ => True) fun _ _ _ => False := by
  obtain ⟨_, node⟩ := Store.node_of_getElem? whole
  have view : s.view f = (.bvUlt, [x, y]) := by rw [Store.view, node]
  have connective : isConnective s f = false := by rw [isConnective, view]
  have circuit : atomCircuit? s f = some (onTwo Circuit.ult) := by rw [atomCircuit?, view]
  rw [formula]
  refine ensures_get_bind ?_
  split
  · exact ensures_pure trivial
  refine ensures_bind (step_passes fresh (by omega)) ?_
  rintro _ b s _ ⟨rfl, fresh⟩
  refine ensures_read_bind ?_
  dsimp only
  rw [connective, if_neg Bool.false_ne_true, circuit, view]
  have judged : (supportsAll [x, y]).Ensures b s (fun _ b' after => after = s ∧
      Fresh b' (steps + 1)) fun _ _ _ => False := ⟨rfl, fresh.config, fresh.steps⟩
  refine ensures_bind judged ?_
  rintro supported b₁ s _ ⟨rfl, fresh⟩
  split_ifs
  · have left := (bits_constant depth first fresh (by omega)).imp
      (fun _ b' now grown fresh => And.intro fresh (grown _ _ second)) fun _ _ _ _ failure => failure
    have both : ([x, y].mapM (bits .unbounded (depth + 1))).Ensures b₁ s (fun _ _ _ => True)
        fun _ _ _ => False := by
      apply ensures_mapM_pair left
      rintro _ b' now ⟨fresh, second⟩
      exact (bits_constant depth second fresh (by omega)).imp (fun _ _ _ _ _ => trivial)
        fun _ _ _ _ failure => failure
    refine ensures_bind both fun vectors b₂ s₂ _ _ => ensures_modify_bind ?_
    refine ensures_bind ensures_build_any fun _ _ _ _ _ => ?_
    exact ensures_modify_bind (ensures_pure trivial)
  · have kept : (keepAtom f).Ensures b₁ s (fun _ _ _ => True) fun _ _ _ => False := trivial
    exact ensures_bind kept fun _ _ _ _ _ => ensures_modify_bind (ensures_pure trivial)

/-- A constant is well-sorted. -/
theorem constant_sorted {K : Constants} (shape : s.nodes[x]? = some ⟨.var name, [], .bitVec width⟩)
    (given : K name (.bitVec width)) : s.BitSorted K x := by
  obtain ⟨inside, node⟩ := Store.node_of_getElem? shape
  apply Store.BitSorted.intro inside
  · rw [Store.op, Store.args, Store.sortOf, node]
    exact ⟨given, .inr ⟨width, rfl⟩⟩
  · rw [Store.args, node]
    simp

/-- A comparison of constants is well-sorted. -/
theorem comparison_sorted {K : Constants}
    (first : s.nodes[x]? = some ⟨.var name, [], .bitVec width⟩)
    (second : s.nodes[y]? = some ⟨.var other, [], .bitVec width⟩)
    (whole : s.nodes[f]? = some ⟨.bvUlt, [x, y], .bool⟩) (left : K name (.bitVec width))
    (right : K other (.bitVec width)) : s.BitSorted K f := by
  obtain ⟨_, nodeX⟩ := Store.node_of_getElem? first
  obtain ⟨_, nodeY⟩ := Store.node_of_getElem? second
  obtain ⟨inside, node⟩ := Store.node_of_getElem? whole
  apply Store.BitSorted.intro inside
  · rw [Store.op, Store.args, Store.sortOf, node]
    exact ⟨rfl, width, by rw [Store.sortOf, nodeX], by rw [Store.sortOf, nodeY]⟩
  · rw [Store.args, node]
    simp [constant_sorted first left, constant_sorted second right]

/-- A store with a comparison of two constants of two bits. -/
theorem exists_comparison : ∃ (s : Store) (x y f : TermId),
    s.nodes[x]? = some ⟨.var "x", [], .bitVec 2⟩ ∧ s.nodes[y]? = some ⟨.var "y", [], .bitVec 2⟩ ∧
      s.nodes[f]? = some ⟨.bvUlt, [x, y], .bool⟩ := by
  have built : (do
      let x ← Terms.intern ⟨.var "x", [], .bitVec 2⟩
      let y ← Terms.intern ⟨.var "y", [], .bitVec 2⟩
      let f ← Terms.intern ⟨.bvUlt, [x, y], .bool⟩
      return (x, y, f) : Terms (TermId × TermId × TermId)).Ensures .initial fun found s =>
      s.nodes[found.1]? = some ⟨.var "x", [], .bitVec 2⟩ ∧
        s.nodes[found.2.1]? = some ⟨.var "y", [], .bitVec 2⟩ ∧
        s.nodes[found.2.2]? = some ⟨.bvUlt, [found.1, found.2.1], .bool⟩ := by
    refine Terms.ensures_bind (Terms.intern_getElem? nofun) fun x s₁ _ first => ?_
    refine Terms.ensures_bind (Terms.intern_getElem? nofun) fun y s₂ g₂ second => ?_
    have inside : ∀ a ∈ [x, y], a < s₂.size := by
      simp [(Store.node_of_getElem? (g₂ _ _ first)).1, (Store.node_of_getElem? second).1]
    refine Terms.ensures_bind (Terms.intern_getElem? inside) fun f s₃ g₃ whole => ?_
    exact Terms.ensures_pure ⟨g₃ _ _ (g₂ _ _ first), g₃ _ _ second, whole⟩
  exact ⟨_, _, _, _, built⟩

/-- The encoding of a comparison of two constants, and the bits of the first one. -/
theorem encoding_correct_case : ∃ (s : Store) (x f : TermId), s.op f = .bvUlt ∧
    s.op x = .var "x" ∧
    (∃ g b' after, ((formula .unbounded (f + 2) f).runFrom {}).run s = ((.ok g, b'), after) ∧
      ∀ truth, after.datum (ofBits truth) g = s.datum (ofBits truth) f) ∧
    ∃ out b' after, ((bits .unbounded (x + 1) x).runFrom {}).run s = ((.ok out, b'), after) ∧
      out.length = 2 := by
  obtain ⟨s, x, y, f, first, second, whole⟩ := exists_comparison
  obtain ⟨_, nodeX⟩ := Store.node_of_getElem? first
  obtain ⟨_, node⟩ := Store.node_of_getElem? whole
  have sortedX : s.BitSorted .all x := constant_sorted first trivial
  have sorted : s.BitSorted .all f := comparison_sorted first second whole trivial trivial
  have fresh : Fresh {} 0 := ⟨rfl, Nat.le_refl 0⟩
  refine ⟨s, x, f, by rw [Store.op, node], by rw [Store.op, nodeX], ?_, ?_⟩
  · obtain ⟨g, b', after, run, _⟩ :=
      (formula_comparison f first second whole fresh (by decide)).exists_ok
    refine ⟨g, b', after, run, fun truth => ?_⟩
    exact ((encoding_correct (.start {} {} s) sorted truth).1 g b' after run
      (by rw [Store.sortOf, node])).2.2
  · obtain ⟨out, b', after, run, _⟩ :=
      (bits_constant x first fresh (by decide)).exists_ok
    obtain ⟨_, _, found, _⟩ := (encoding_correct (.start {} {} s) sortedX fun _ => true).2 2
      (by rw [Store.sortOf, nodeX])
    exact ⟨out, b', after, run, (found out b' after run).1⟩

end Comparison

end Blaster

end Stratagem
