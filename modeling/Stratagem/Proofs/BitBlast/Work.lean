import Stratagem.Proofs.BitBlast.Encoding

/-!
# The working state over well-sorted formulas

While only well-sorted formulas over given constants are encoded, every constant that is replaced
by bits is one of these and is replaced once, and no application is met.
-/
namespace Stratagem

namespace BlastWork

/-- Outside of all quantifiers, only constants of a given vocabulary were replaced by bits, each
once, and no applications. -/
structure Orderly (L : Constants) (w : BlastWork) (s : Store) : Prop where
  /-- No quantifier is around. -/
  outside : w.inner = []
  /-- No application was met. -/
  applications : w.applications = #[]
  /-- No constant was replaced twice. -/
  nodup : (w.constants.toList.map Prod.fst).Nodup
  /-- The constants that were replaced are given ones. -/
  constants : ∀ c ∈ w.constants, ∃ x width, s.node c.1 = ⟨.var x, [], .bitVec width⟩ ∧
    L x (.bitVec width)

variable {L : Constants} {w w' : BlastWork} {s after : Store}

/-- The node of a constant stays when the store grows. -/
theorem node_var_mono {c : TermId} {x : String} {sort : TermSort} (grown : s.Extends after)
    (node : s.node c = ⟨.var x, [], sort⟩) : after.node c = ⟨.var x, [], sort⟩ := by
  rw [← node]
  exact grown.node_eq (Store.lt_size_of_var (congrArg Node.op node))

/-- A working state stays orderly when the store grows. -/
theorem Orderly.mono (known : w.Orderly L s) (grown : s.Extends after) : w.Orderly L after where
  outside := known.outside
  applications := known.applications
  nodup := known.nodup
  constants c member := by
    obtain ⟨x, width, node, given⟩ := known.constants c member
    exact ⟨x, width, node_var_mono grown node, given⟩

/-- What is remembered of terms and formulas, what is kept and what is counted does not matter. -/
theorem Orderly.congr (known : w.Orderly L s) (inner : w'.inner = w.inner)
    (applications : w'.applications = w.applications) (constants : w'.constants = w.constants) :
    w'.Orderly L s where
  outside := inner.trans known.outside
  applications := applications.trans known.applications
  nodup := constants ▸ known.nodup
  constants := constants ▸ known.constants

/-- Changing a scope leaves the rest. -/
theorem Orderly.modifyScope (known : w.Orderly L s) (change : BlastScope → BlastScope) :
    (w.modifyScope change).Orderly L s := by
  obtain ⟨constants, applications, kept, support, outer, inner, steps⟩ := w
  obtain rfl : inner = [] := known.outside
  exact known.congr rfl rfl rfl

/-- Keeping constants leaves the rest. -/
theorem Orderly.foldl_keepConstant (known : w.Orderly L s) (terms : List TermId) :
    (terms.foldl keepConstant w).Orderly L s := by
  induction terms generalizing w with
  | nil => exact known
  | cons c rest tail =>
    apply tail
    unfold keepConstant
    split
    · next inside =>
      rw [known.outside] at inside
      cases inside
    · exact known.congr rfl rfl rfl

/-- The working state in which nothing is known. -/
theorem orderly_empty (L : Constants) (s : Store) : ({} : BlastWork).Orderly L s where
  outside := rfl
  applications := rfl
  nodup := List.nodup_nil
  constants c member := by cases Array.not_mem_empty c member

end BlastWork

namespace Blaster

open Attempt BlastWork

variable {L : Constants} {start : Store} {context : Context} {t f : TermId}

/-- The working state is orderly, in a store that has grown from a given one. -/
def Orderly (L : Constants) (start : Store) (b : Blaster) (s : Store) : Prop :=
  start.Extends s ∧ b.work.Orderly L s

/-- A bit-blaster stays orderly when the store grows. -/
theorem Orderly.mono (b : Blaster) (s after : Store) (known : Orderly L start b s)
    (grown : s.Extends after) : Orderly L start b after :=
  ⟨known.1.trans grown, known.2.mono grown⟩

/-- Building terms keeps a bit-blaster orderly. -/
theorem build_orderly {α : Type} (work : Terms α) :
    (Attempt.build work : Attempt Blaster α).Preserves (Orderly L start) :=
  preserves_build Orderly.mono work

/-- A step keeps a bit-blaster orderly. -/
theorem step_orderly : (step context).Preserves (Orderly L start) := by
  intro b s known
  apply step_ensures.imp
  · rintro _ b' after _ ⟨rfl, rfl⟩
    exact ⟨known.1, known.2.congr rfl rfl rfl⟩
  · exact fun _ _ _ _ _ => trivial

/-- Keeping an atom keeps a bit-blaster orderly. -/
theorem keep_orderly (f : TermId) : (keep f).Preserves (Orderly L start) := by
  apply preserves_read_bind
  intro _ s _
  apply preserves_modify
  intro b s' known
  exact ⟨known.1, known.2.foldl_keepConstant _⟩

/-- Leaving an atom as it is keeps a bit-blaster orderly. -/
theorem keepAtom_orderly (f : TermId) : (keepAtom f).Preserves (Orderly L start) := by
  apply preserves_bind
  · exact preserves_modify fun _ _ known => known
  intro _
  apply preserves_bind (keep_orderly f)
  intro _
  exact preserves_pure f

/-- Judging the operations of terms keeps a bit-blaster orderly. -/
theorem supportsAll_orderly (args : List TermId) :
    (supportsAll args).Preserves (Orderly L start) :=
  fun _ _ known => ⟨known.1, known.2.congr rfl rfl rfl⟩

/-- Finding the bits of a given constant keeps a bit-blaster orderly. -/
theorem constantBits_orderly (sorted : start.BitSorted L t) {name : String}
    (var : start.op t = .var name) : (constantBits t).Preserves (Orderly L start) := by
  intro b s known
  have grown := known.1
  obtain ⟨node, given⟩ := node_of_var sorted var
  unfold constantBits
  apply ensures_get_bind
  dsimp only
  split
  · exact ensures_pure known
  · next absent =>
    apply ensures_read_bind
    split
    · next x width named sized =>
      apply ensures_bind (ensures_build (mkBits_ensures (bitNames x width)))
      rintro bits b after more ⟨rfl, _⟩
      apply ensures_modify_bind
      apply ensures_pure
      have later := known.2.mono more
      -- The constant is new, since its bits were looked up before.
      have new : t ∉ b.work.constants.toList.map Prod.fst := by
        intro member
        obtain ⟨c, inside, same⟩ := List.mem_map.mp member
        have missing := (Option.or_eq_none_iff.mp absent).2
        rw [Option.map_eq_none_iff, Array.find?_eq_none] at missing
        exact missing c (by simpa using inside) (by simp [same])
      have vector : start.sortOf t = .bitVec width := by
        rw [grown.sortOf_eq sorted.inside] at sized
        exact TermSort.eq_bitVec sized
      rw [vector] at node given
      refine ⟨grown.trans more, later.outside, later.applications, ?_, ?_⟩
      · dsimp only
        rw [Array.toList_push, List.map_append]
        exact List.nodup_append'.mpr ⟨later.nodup, List.nodup_singleton t, by simpa using new⟩
      · intro c member
        rcases Array.mem_push.mp member with old | rfl
        · exact later.constants c old
        · exact ⟨name, width, node_var_mono (grown.trans more) node, given⟩
    · exact ensures_throw trivial

section Runs

variable {depth : ℕ}

/-- Down to a depth, finding the bits of well-sorted terms keeps a bit-blaster orderly. -/
def OrderlyTerms (L : Constants) (start : Store) (context : Context) (depth : ℕ) : Prop :=
  ∀ t, start.BitSorted L t → (bits context depth t).Preserves (Orderly L start)

/-- Down to a depth, encoding well-sorted formulas keeps a bit-blaster orderly. -/
def OrderlyFormulas (L : Constants) (start : Store) (context : Context) (depth : ℕ) : Prop :=
  ∀ f, start.BitSorted L f → (formula context depth f).Preserves (Orderly L start)

/-- The bits of two arguments. -/
theorem two_orderly (terms : OrderlyTerms L start context depth) {a c : TermId}
    (first : start.BitSorted L a) (second : start.BitSorted L c)
    (circuit : Bits → Bits → Terms Bits) :
    (do
      let a ← bits context depth a
      let c ← bits context depth c
      Attempt.build (circuit a c) : Attempt Blaster Bits).Preserves (Orderly L start) := by
  apply preserves_bind (terms a first)
  intro _
  apply preserves_bind (terms c second)
  intro _
  exact build_orderly _

/-- The bits of a term one level deeper. -/
theorem bits_orderly (terms : OrderlyTerms L start context depth)
    (formulas : OrderlyFormulas L start context depth) :
    OrderlyTerms L start context (depth + 1) := by
  intro t sorted
  have remembered : ∀ out, (do rememberTerm t out; pure out : Attempt Blaster Bits).Preserves
      (Orderly L start) := by
    intro out
    apply preserves_bind
    · exact preserves_modify fun _ _ known => ⟨known.1, known.2.modifyScope _⟩
    intro _
    exact preserves_pure out
  rw [bits]
  apply preserves_get_bind
  intro b
  split
  · exact preserves_pure _
  apply preserves_bind step_orderly
  intro _
  apply preserves_read_bind
  intro _ s known
  have same : s.view t = start.view t := known.1.view_eq sorted.inside
  have arguments : ∀ a ∈ (s.view t).2, start.BitSorted L a := by
    rw [same]
    exact fun a member => sorted.of_mem_args member
  have fits := sorted.fits
  have one : ∀ {op : Op} {a : TermId} (circuit : Bits → Terms Bits), s.view t = (op, [a]) → (do
      let a ← bits context depth a
      let out ← Attempt.build (circuit a)
      rememberTerm t out
      pure out : Attempt Blaster Bits).Preserves (Orderly L start) := by
    intro op a circuit head
    apply preserves_bind (terms a (arguments a (by simp [head])))
    intro _
    exact preserves_bind (build_orderly _) remembered
  have two : ∀ {op : Op} {a c : TermId} (circuit : Bits → Bits → Terms Bits),
      s.view t = (op, [a, c]) → ((do
        let a ← bits context depth a
        let c ← bits context depth c
        Attempt.build (circuit a c)) >>= fun out => do
        rememberTerm t out
        pure out : Attempt Blaster Bits).Preserves (Orderly L start) := by
    intro op a c circuit head
    have first := arguments a (by simp [head])
    have second := arguments c (by simp [head])
    exact preserves_bind (two_orderly terms first second circuit) remembered
  dsimp only
  split
  case h_1 => exact preserves_bind (preserves_pure _) remembered
  case h_2 head =>
    have var : start.op t = .var _ := congrArg Prod.fst (same.symm.trans head)
    exact preserves_bind (constantBits_orderly sorted var) remembered
  case h_3 head | h_7 head => exact one _ head
  case h_4 head | h_5 head | h_6 head | h_8 head | h_9 head | h_10 head => exact two _ head
  case h_11 high low head =>
    have first := arguments low (by simp [head])
    have second := arguments high (by simp [head])
    exact preserves_bind (two_orderly terms first second _) remembered
  case h_12 high low a head =>
    apply preserves_bind (terms a (arguments a (by simp [head])))
    intro out
    split
    · exact preserves_bind (preserves_pure _) remembered
    · exact preserves_throw_bind _ _
  case h_13 c a b head =>
    apply preserves_bind (formulas c (arguments c (by simp [head])))
    intro condition
    have first := arguments a (by simp [head])
    have second := arguments b (by simp [head])
    exact preserves_bind (two_orderly terms first second _) remembered
  case h_14 head =>
    have applied : start.op t = .apply _ := congrArg Prod.fst (same.symm.trans head)
    rw [applied] at fits
    exact fits.elim
  case h_15 => exact preserves_throw_bind _ _

/-- The encoding of a formula one level deeper. -/
theorem formula_orderly (terms : OrderlyTerms L start context depth)
    (formulas : OrderlyFormulas L start context depth) :
    OrderlyFormulas L start context (depth + 1) := by
  intro f sorted
  have remembered : ∀ encoding,
      (do rememberFormula f encoding; pure encoding : Attempt Blaster TermId).Preserves
        (Orderly L start) := by
    intro encoding
    apply preserves_bind
    · exact preserves_modify fun _ _ known => ⟨known.1, known.2.modifyScope _⟩
    intro _
    exact preserves_pure encoding
  rw [formula]
  apply preserves_get_bind
  intro b
  split
  · exact preserves_pure _
  apply preserves_bind step_orderly
  intro _
  apply preserves_read_bind
  intro _ s known
  have same : s.view f = start.view f := known.1.view_eq sorted.inside
  have arguments : ∀ a ∈ (s.view f).2, start.BitSorted L a := by
    rw [same]
    exact fun a member => sorted.of_mem_args member
  have fits := sorted.fits
  dsimp only
  split
  · apply preserves_bind (preserves_mapM _ fun a member => formulas a (arguments a member))
    intro args
    exact preserves_bind (build_orderly _) remembered
  split
  · next head =>
    apply preserves_bind (supportsAll_orderly _)
    intro supported
    split
    · apply preserves_bind
      · apply preserves_mapM
        intro a member
        exact terms a (arguments a (by rwa [head]))
      intro vectors
      apply preserves_bind
      · exact preserves_modify fun _ _ known => known
      intro _
      exact preserves_bind (build_orderly _) remembered
    · exact preserves_bind (keepAtom_orderly f) remembered
  -- A well-sorted formula is no quantifier.
  · next vars body _ head =>
    have universal : start.op f = .universal vars := congrArg Prod.fst (same.symm.trans head)
    rw [universal] at fits
    exact fits.elim
  · next vars body _ head =>
    have existential : start.op f = .existential vars := congrArg Prod.fst (same.symm.trans head)
    rw [existential] at fits
    exact fits.elim
  · apply preserves_bind (keep_orderly f)
    intro _
    exact preserves_bind (preserves_pure f) remembered

/-- Encoding well-sorted terms and formulas keeps a bit-blaster orderly. -/
theorem encodes_orderly (L : Constants) (start : Store) (context : Context) (depth : ℕ) :
    OrderlyTerms L start context depth ∧ OrderlyFormulas L start context depth := by
  induction depth with
  | zero =>
    constructor
    · intro t _
      rw [bits]
      exact preserves_throw _
    · intro f _
      rw [formula]
      exact preserves_throw _
  | succ depth both => exact ⟨bits_orderly both.1 both.2, formula_orderly both.1 both.2⟩

end Runs

end Blaster
end Stratagem
