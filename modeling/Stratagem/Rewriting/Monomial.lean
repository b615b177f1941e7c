import Stratagem.Term.Traversal

/-!
# Monomials and linear forms

A monomial is a rational coefficient times a power product, the list of the other factors of a
product. A collection of monomials keeps one coefficient for each power product, in the order in
which the power products came in, and an index of the positions; a monomial that is taken out leaves
a zero, which the index does not know. A linear form is a constant and such a collection.
-/
namespace Stratagem

/-- The factors of a monomial other than its coefficient. -/
abbrev PowerProduct := List TermId

/-- A coefficient of a power product. -/
structure Monomial where
  /-- Coefficient. -/
  coeff : Rat
  /-- Power product. -/
  product : PowerProduct
  deriving DecidableEq, Repr

namespace Monomials

/-- Monomials other than zero are over different power products. -/
def Distinct (entries : List Monomial) : Prop :=
  entries.Pairwise fun a b => a.coeff ≠ 0 → b.coeff ≠ 0 → a.product ≠ b.product

/-- An index points at monomials of a list, and at every one that is not zero. -/
structure Tracks (index : Std.HashMap PowerProduct Nat) (entries : List Monomial) : Prop where
  /-- What the index has for a power product is the position of a monomial over it. -/
  points : ∀ (product : PowerProduct) (i : Nat), index[product]? = some i →
    ∃ c, entries[i]? = some ⟨c, product⟩
  /-- A monomial that the index does not point at is a zero. -/
  reached : ∀ (i : Nat) (e : Monomial), entries[i]? = some e → e.coeff ≠ 0 →
    index[e.product]? = some i

namespace Tracks

variable {index : Std.HashMap PowerProduct Nat} {entries : List Monomial} {product : PowerProduct}
  {position : Nat}

/-- The empty index points at nothing. -/
theorem nil : Tracks ∅ [] := ⟨by simp, by simp⟩

/-- A new coefficient in the place of one that the index points at. -/
theorem modify (tracks : Tracks index entries) (found : index[product]? = some position)
    (change : Rat → Rat) :
    Tracks index (entries.modify position fun e => { e with coeff := change e.coeff }) where
  points other i known := by
    obtain ⟨c, there⟩ := tracks.points other i known
    rw [List.getElem?_modify, there]
    by_cases here : position = i <;> simp [here]
  reached i e there nonzero := by
    rw [List.getElem?_modify] at there
    by_cases here : position = i
    · subst here
      obtain ⟨c, stands⟩ := tracks.points product position found
      rw [stands] at there
      obtain rfl : _ = e := by simpa using there
      exact found
    · exact tracks.reached i e (by simpa [here] using there) nonzero

/-- A monomial over a power product that the index does not know comes in last. -/
theorem append (tracks : Tracks index entries) (unknown : index[product]? = none) (c : Rat) :
    Tracks (index.insert product entries.length) (entries ++ [⟨c, product⟩]) where
  points other i known := by
    rw [Std.HashMap.getElem?_insert] at known
    split at known
    · next same =>
      obtain rfl : product = other := by simpa using same
      obtain rfl := Option.some.inj known
      exact ⟨c, by simp⟩
    · obtain ⟨d, there⟩ := tracks.points other i known
      have inside : i < entries.length := (List.getElem?_eq_some_iff.mp there).1
      exact ⟨d, by rw [List.getElem?_append_left inside, there]⟩
  reached i e there nonzero := by
    rw [Std.HashMap.getElem?_insert]
    by_cases inside : i < entries.length
    · rw [List.getElem?_append_left inside] at there
      have known := tracks.reached i e there nonzero
      have other : product ≠ e.product := by
        rintro rfl
        rw [known] at unknown
        cases unknown
      rw [if_neg (by simpa using other), known]
    · rw [List.getElem?_append_right (Nat.le_of_not_lt inside)] at there
      obtain ⟨last, same⟩ := List.getElem?_eq_some_iff.mp there
      obtain rfl : _ = e := by simpa using same
      have end_ : i = entries.length := by simp at last; omega
      rw [if_pos (beq_self_eq_true _), end_]

/-- A monomial that is taken out leaves a zero that the index does not point at. -/
theorem erase (tracks : Tracks index entries) (found : index[product]? = some position) :
    Tracks (index.erase product) (entries.modify position fun e => { e with coeff := 0 }) where
  points other i known := by
    rw [Std.HashMap.getElem?_erase] at known
    split at known
    · cases known
    · exact (tracks.modify found fun _ => 0).points other i known
  reached i e there nonzero := by
    have known := (tracks.modify found fun _ => 0).reached i e there nonzero
    rw [Std.HashMap.getElem?_erase, if_neg, known]
    intro same
    obtain rfl : product = e.product := by simpa using same
    obtain rfl : position = i := Option.some.inj (found.symm.trans known)
    obtain ⟨d, _, rfl⟩ : ∃ d, entries[position]? = some d ∧ { d with coeff := 0 } = e := by
      simpa [List.getElem?_modify] using there
    exact nonzero rfl

/-- Monomials that are tracked are distinct. -/
theorem distinct (tracks : Tracks index entries) : Distinct entries := by
  unfold Distinct
  rw [List.pairwise_iff_getElem]
  intro i j first second less left right same
  have here := tracks.reached i entries[i] (List.getElem?_eq_getElem first) left
  have there := tracks.reached j entries[j] (List.getElem?_eq_getElem second) right
  rw [same, there] at here
  exact Nat.ne_of_gt less (Option.some.inj here)

end Tracks

/-- The positions of monomials by their power products. -/
def positions (entries : List Monomial) : Std.HashMap PowerProduct Nat :=
  .ofList (entries.zipIdx.map fun (e, i) => (e.product, i))

/-- Of monomials over different power products each has its position. -/
theorem getElem?_positions {entries : List Monomial} {i : Nat} {e : Monomial}
    (apart : entries.Pairwise fun a b => a.product ≠ b.product) (there : entries[i]? = some e) :
    (positions entries)[e.product]? = some i := by
  refine Std.HashMap.getElem?_ofList_of_mem (beq_self_eq_true e.product) ?_ ?_
  · rw [← List.zipIdx_map_fst 0 entries, List.pairwise_map] at apart
    exact List.pairwise_map.mpr (apart.imp fun differ => beq_false_of_ne differ)
  · exact List.mem_map.mpr ⟨(e, i), List.mk_mem_zipIdx_iff_getElem?.mpr there, rfl⟩

/-- The positions of monomials over different power products track these. -/
theorem Tracks.ofPositions {entries : List Monomial}
    (apart : entries.Pairwise fun a b => a.product ≠ b.product) :
    Tracks (positions entries) entries where
  points product i known := by
    by_cases present : ∃ e ∈ entries, e.product = product
    · obtain ⟨e, member, rfl⟩ := present
      obtain ⟨j, there⟩ := List.getElem?_of_mem member
      obtain rfl := Option.some.inj ((getElem?_positions apart there).symm.trans known)
      exact ⟨e.coeff, there⟩
    · have unknown : (positions entries)[product]? = none := by
        refine Std.HashMap.getElem?_ofList_of_contains_eq_false ?_
        rw [List.contains_eq_mem, decide_eq_false_iff_not]
        intro member
        obtain ⟨_, pair, rfl⟩ := List.mem_map.mp member
        obtain ⟨⟨e, j⟩, inside, rfl⟩ := List.mem_map.mp pair
        exact present ⟨e, List.mem_of_getElem? (List.mk_mem_zipIdx_iff_getElem?.mp inside), rfl⟩
      rw [unknown] at known
      cases known
  reached _ _ there _ := getElem?_positions apart there

/-- Without the zeros all power products differ. -/
theorem Distinct.filter {entries : List Monomial} (distinct : Distinct entries) :
    (entries.filter (·.coeff ≠ 0)).Pairwise fun a b => a.product ≠ b.product :=
  List.pairwise_filter.mpr (distinct.imp fun differ left right =>
    differ (of_decide_eq_true left) (of_decide_eq_true right))

/-- Distinct monomials are so in every order. -/
theorem Distinct.perm {entries others : List Monomial} (distinct : Distinct entries)
    (perm : others.Perm entries) : Distinct others :=
  (perm.pairwise_iff fun differ right left same => differ left right same.symm).mpr distinct

end Monomials

/-- A collection of monomials in order of arrival. -/
structure Monomials where
  /-- Monomials in order, and the zeros left where some were taken out. -/
  entries : List Monomial := []
  /-- The position of the monomial of each power product. -/
  index : Std.HashMap PowerProduct Nat := ∅
  /-- The index points at monomials of the collection, and at every one that is not zero. -/
  tracked : Monomials.Tracks index entries := by exact Monomials.Tracks.nil

namespace Monomials

/-- The coefficient of a power product. -/
def coeff? (m : Monomials) (product : PowerProduct) : Option Rat :=
  m.index[product]?.bind fun i => m.entries[i]?.map (·.coeff)

/-- Add a multiple of a power product: to its monomial, or as a new one. -/
def add (m : Monomials) (c : Rat) (product : PowerProduct) : Monomials :=
  match found : m.index[product]? with
  | some i =>
    { entries := m.entries.modify i fun e => { e with coeff := e.coeff + c }
      index := m.index
      tracked := m.tracked.modify found (· + c) }
  | none =>
    { entries := m.entries ++ [⟨c, product⟩]
      index := m.index.insert product m.entries.length
      tracked := m.tracked.append found c }

/-- Leave a zero in the place of the monomial of a power product, and forget its position. -/
def blank (m : Monomials) (product : PowerProduct) : Monomials :=
  match found : m.index[product]? with
  | some i =>
    { entries := m.entries.modify i fun e => { e with coeff := 0 }
      index := m.index.erase product
      tracked := m.tracked.erase found }
  | none => m

/-- Take out the monomial of a power product: its coefficient, and the collection without it. -/
def take (m : Monomials) (product : PowerProduct) : Option Rat × Monomials :=
  (m.coeff? product, m.blank product)

/-- The monomials of a list that are not zero, with their positions. -/
def ofNonzero (entries : List Monomial) (distinct : Distinct entries) : Monomials where
  entries := entries.filter (·.coeff ≠ 0)
  index := positions (entries.filter (·.coeff ≠ 0))
  tracked := .ofPositions distinct.filter

/-- Drop the monomials with coefficient zero. -/
def retainNonzero (m : Monomials) : Monomials := ofNonzero m.entries m.tracked.distinct

/-- The order of power products: by their first different factors, a shorter one first. -/
def productLe : PowerProduct → PowerProduct → Bool
  | [], _ => true
  | _ :: _, [] => false
  | a :: left, b :: right => a < b || (a == b && productLe left right)

/-- Order by power product and drop the monomials with coefficient zero. -/
def sort (m : Monomials) : Monomials :=
  ofNonzero (m.entries.mergeSort fun a b => productLe a.product b.product)
    (m.tracked.distinct.perm (List.mergeSort_perm m.entries _))

/-- The monomials in order, zeros included. -/
def toList (m : Monomials) : List Monomial := m.entries

/-- The number of entries. -/
def size (m : Monomials) : Nat := m.entries.length

/-- Whether there are no entries. -/
def isEmpty (m : Monomials) : Bool := m.entries.isEmpty

/-- Every coefficient divided by a number. -/
def divide (m : Monomials) (d : Rat) : Monomials :=
  m.toList.foldl (fun scaled e => scaled.add (e.coeff / d) e.product) {}

end Monomials

namespace Store

/-- The members of nested applications of one head, in order. -/
def flattenTo (s : Store) (head : Op) : Nat → TermId → List TermId
  | 0, t => [t]
  | depth + 1, t => if s.op t = head then (s.args t).flatMap (s.flattenTo head depth) else [t]

/-- The summands of a term, nested sums flattened. -/
def summands (s : Store) (t : TermId) : List TermId := s.flattenTo .add (t + 1) t

/-- The factors of several terms, nested products flattened. -/
def factors (s : Store) (args : List TermId) : List TermId :=
  args.flatMap fun t => s.flattenTo .mul (t + 1) t

/-- A term as a monomial: the leading literal of a product is the coefficient. -/
def monomial (s : Store) (t : TermId) : Monomial :=
  match s.view t with
  | (.mul, []) => ⟨1, []⟩
  | (.mul, first :: rest) =>
    match s.numeral? first with
    | some c => ⟨c, rest⟩
    | none => ⟨1, first :: rest⟩
  | _ => ⟨1, [t]⟩

end Store

/-- A rational constant and monomials. -/
structure LinearForm where
  /-- Sum of the rational literals. -/
  constant : Rat
  /-- The other summands. -/
  monomials : Monomials

/-- Add a summand to a linear form. -/
def LinearForm.addTerm (s : Store) (form : LinearForm) (t : TermId) : LinearForm :=
  match s.numeral? t with
  | some r => { form with constant := form.constant + r }
  | none =>
    let m := s.monomial t
    { form with monomials := form.monomials.add m.coeff m.product }

/-- The linear form of a term; irrational literals are power products. -/
def Store.linearForm (s : Store) (t : TermId) : LinearForm :=
  let form := (s.summands t).foldl (LinearForm.addTerm s) ⟨0, {}⟩
  { form with monomials := form.monomials.retainNonzero }

end Stratagem
