import Mathlib.Data.List.Lex
import Mathlib.Logic.Function.Basic
import Mathlib.Algebra.Ring.Rat
import Stratagem.Rewriting.Monomial

/-!
# Collections of monomials as finite maps

A collection of monomials is a finite map of power products to coefficients. A multiple is added to
the coefficient of its power product, what is taken out has no coefficient any more, and dropping
zeros drops the power products whose coefficient is zero. The zeros that are left in the place of
what was taken out are never found again: a power product that comes back stands last. So the
monomials that are not zero are those of the map, each once, whatever was done before.
-/
namespace Stratagem.Monomials

variable {m : Monomials} {c : ℚ} {product other : PowerProduct} {i : ℕ}

/-- The coefficient at the position of a power product. -/
theorem coeff?_of_found {d : ℚ} (found : m.index[product]? = some i)
    (there : m.entries[i]? = some ⟨d, product⟩) : m.coeff? product = some d := by
  rw [coeff?, found, Option.bind_some, there, Option.map_some]

/-- A power product that the index does not know has no coefficient. -/
theorem coeff?_of_unknown (unknown : m.index[product]? = none) : m.coeff? product = none := by
  rw [coeff?, unknown, Option.bind_none]

/-- The monomial of a power product with those before and after it, and the list in which its
coefficient is another one. -/
theorem exists_split (found : m.index[product]? = some i) : ∃ before d after,
    m.toList = before ++ ⟨d, product⟩ :: after ∧ m.coeff? product = some d ∧
      ∀ change : ℚ → ℚ, (m.entries.modify i fun e => { e with coeff := change e.coeff }) =
        before ++ ⟨change d, product⟩ :: after := by
  obtain ⟨d, there⟩ := m.tracked.points product i found
  obtain ⟨inside, here⟩ := List.getElem?_eq_some_iff.mp there
  refine ⟨m.entries.take i, d, m.entries.drop (i + 1), ?_, coeff?_of_found found there, ?_⟩
  · rw [toList, ← here, ← List.drop_eq_getElem_cons inside, List.take_append_drop]
  · intro change
    rw [List.modify_eq_take_cons_drop inside, here]

/-- A multiple is added to the monomial of its power product, or stands last as a new monomial. -/
theorem add_cases (m : Monomials) (c : ℚ) (product : PowerProduct) :
    (∃ before d after, m.toList = before ++ ⟨d, product⟩ :: after ∧ m.coeff? product = some d ∧
      (m.add c product).toList = before ++ ⟨d + c, product⟩ :: after) ∨
    (m.coeff? product = none ∧ (m.add c product).toList = m.toList ++ [⟨c, product⟩]) := by
  unfold add
  split
  · next i found =>
    obtain ⟨before, d, after, whole, coeff, modified⟩ := exists_split found
    exact .inl ⟨before, d, after, whole, coeff, modified (· + c)⟩
  · next unknown => exact .inr ⟨coeff?_of_unknown unknown, rfl⟩

/-- A multiple of a power product without a coefficient stands last. -/
theorem toList_add_of_unknown (unknown : m.coeff? product = none) :
    (m.add c product).toList = m.toList ++ [⟨c, product⟩] := by
  obtain ⟨_, d, _, _, known, _⟩ | ⟨_, added⟩ := m.add_cases c product
  · rw [unknown] at known
    cases known
  · exact added

/-- The empty collection has no coefficients. -/
@[simp] theorem coeff?_empty : ({} : Monomials).coeff? product = none :=
  coeff?_of_unknown Std.HashMap.getElem?_empty

/-- The empty collection has no monomials. -/
@[simp] theorem toList_empty : ({} : Monomials).toList = [] := rfl

/-- A monomial is taken out by leaving a zero in its place. -/
theorem blank_cases (m : Monomials) (product : PowerProduct) :
    (∃ before d after, m.toList = before ++ ⟨d, product⟩ :: after ∧ m.coeff? product = some d ∧
      (m.blank product).toList = before ++ ⟨0, product⟩ :: after) ∨
    (m.coeff? product = none ∧ m.blank product = m) := by
  unfold blank
  split
  · next i found =>
    obtain ⟨before, d, after, whole, coeff, modified⟩ := exists_split found
    exact .inl ⟨before, d, after, whole, coeff, modified fun _ => 0⟩
  · next unknown => exact .inr ⟨coeff?_of_unknown unknown, rfl⟩

/-- Adding a multiple keeps a property that sums of coefficients keep. -/
theorem forall_add {P : Monomial → Prop} (known : ∀ e ∈ m.toList, P e) (new : P ⟨c, product⟩)
    (sum : ∀ d, P ⟨d, product⟩ → P ⟨d + c, product⟩) : ∀ e ∈ (m.add c product).toList, P e := by
  obtain ⟨before, d, after, whole, _, added⟩ | ⟨_, added⟩ := m.add_cases c product
  · rw [whole, List.forall_mem_append, List.forall_mem_cons] at known
    rw [added, List.forall_mem_append, List.forall_mem_cons]
    exact ⟨known.1, sum d known.2.1, known.2.2⟩
  · rw [added, List.forall_mem_append]
    exact ⟨known, List.forall_mem_singleton.mpr new⟩

/-- Taking out a monomial keeps a property that zeros have. -/
theorem forall_blank {P : Monomial → Prop} (known : ∀ e ∈ m.toList, P e)
    (zero : ∀ d, P ⟨d, product⟩ → P ⟨0, product⟩) : ∀ e ∈ (m.blank product).toList, P e := by
  obtain ⟨before, d, after, whole, _, blanked⟩ | ⟨_, same⟩ := m.blank_cases product
  · rw [whole, List.forall_mem_append, List.forall_mem_cons] at known
    rw [blanked, List.forall_mem_append, List.forall_mem_cons]
    exact ⟨known.1, zero d known.2.1, known.2.2⟩
  · rw [same]
    exact known

/-- The monomials other than zero are left. -/
theorem toList_retainNonzero (m : Monomials) :
    m.retainNonzero.toList = m.toList.filter (·.coeff ≠ 0) := rfl

/-- The monomials other than zero are left in order. -/
theorem toList_sort (m : Monomials) : m.sort.toList =
    (m.toList.mergeSort fun a b => productLe a.product b.product).filter (·.coeff ≠ 0) := rfl

/-- The coefficient of a power product is that of a monomial of the collection. -/
theorem coeff?_mem (found : m.coeff? product = some c) : (⟨c, product⟩ : Monomial) ∈ m.toList := by
  obtain ⟨i, known, there⟩ := Option.bind_eq_some_iff.mp found
  obtain ⟨d, stands⟩ := m.tracked.points product i known
  obtain rfl : d = c := by simpa [stands] using there
  exact List.mem_of_getElem? stands

/-- A monomial other than zero has the coefficient of its power product. -/
theorem coeff?_of_mem (member : (⟨c, product⟩ : Monomial) ∈ m.toList) (nonzero : c ≠ 0) :
    m.coeff? product = some c := by
  obtain ⟨i, there⟩ := List.getElem?_of_mem member
  exact coeff?_of_found (m.tracked.reached i _ there nonzero) there

/-- A power product whose position and monomial stay keeps its coefficient. -/
theorem coeff?_congr {m' : Monomials} (position : m'.index[product]? = m.index[product]?)
    (stays : ∀ i, m.index[product]? = some i → m'.entries[i]? = m.entries[i]?) :
    m'.coeff? product = m.coeff? product := by
  unfold coeff?
  rw [position]
  exact Option.bind_congr fun i found => by rw [stays i found]

/-- A change at the position of another power product changes nothing for a power product. -/
theorem getElem?_modify_of_ne {j : ℕ} (differ : other ≠ product)
    (found : m.index[product]? = some i) (known : m.index[other]? = some j)
    (change : Monomial → Monomial) : (m.entries.modify i change)[j]? = m.entries[j]? := by
  have apart : i ≠ j := by
    rintro rfl
    obtain ⟨d, there⟩ := m.tracked.points product i found
    obtain ⟨d', stands⟩ := m.tracked.points other i known
    exact differ (congrArg Monomial.product (Option.some.inj (stands.symm.trans there)))
  simp [apart]

/-- The coefficients after a multiple is added. -/
theorem coeff?_add (m : Monomials) (c : ℚ) (product other : PowerProduct) :
    (m.add c product).coeff? other =
      if other = product then some ((m.coeff? product).getD 0 + c) else m.coeff? other := by
  unfold add
  split
  · next i found =>
    obtain ⟨d, there⟩ := m.tracked.points product i found
    split
    · next same =>
      subst same
      rw [coeff?_of_found found there]
      exact coeff?_of_found found (by simp [there])
    · next differ =>
      exact coeff?_congr rfl fun j known => getElem?_modify_of_ne differ found known _
  · next unknown =>
    split
    · next same =>
      subst same
      rw [coeff?_of_unknown unknown, Option.getD_none, zero_add]
      exact coeff?_of_found Std.HashMap.getElem?_insert_self (by simp)
    · next differ =>
      refine coeff?_congr ?_ fun j known => ?_
      · rw [Std.HashMap.getElem?_insert, if_neg (by simpa using Ne.symm differ)]
      · obtain ⟨d, there⟩ := m.tracked.points other j known
        rw [List.getElem?_append_left (List.getElem?_eq_some_iff.mp there).1]

/-- The coefficients after a monomial is taken out. -/
theorem coeff?_blank (m : Monomials) (product other : PowerProduct) :
    (m.blank product).coeff? other = if other = product then none else m.coeff? other := by
  unfold blank
  split
  · next i found =>
    split
    · next same =>
      subst same
      exact coeff?_of_unknown (by simp)
    · next differ =>
      refine coeff?_congr ?_ fun j known => getElem?_modify_of_ne differ found known _
      rw [Std.HashMap.getElem?_erase, if_neg (by simpa using Ne.symm differ)]
  · next unknown =>
    split
    · next same =>
      subst same
      exact coeff?_of_unknown unknown
    · rfl

/-- The coefficients of the monomials of a list that are not zero. -/
theorem coeff?_ofNonzero {entries : List Monomial} (distinct : Distinct entries)
    (product : PowerProduct) (c : ℚ) :
    (ofNonzero entries distinct).coeff? product = some c ↔ c ≠ 0 ∧ ⟨c, product⟩ ∈ entries := by
  have members (e : Monomial) : e ∈ (ofNonzero entries distinct).toList ↔
      e ∈ entries ∧ e.coeff ≠ 0 := by
    simp [toList, ofNonzero]
  constructor
  · intro found
    exact ((members _).mp (coeff?_mem found)).symm
  · rintro ⟨nonzero, member⟩
    exact coeff?_of_mem ((members _).mpr ⟨member, nonzero⟩) nonzero

/-- The coefficients that are not zero stay when the others are dropped. -/
theorem coeff?_retainNonzero (m : Monomials) (product : PowerProduct) :
    m.retainNonzero.coeff? product = (m.coeff? product).filter (· ≠ 0) := by
  ext c
  rw [retainNonzero, coeff?_ofNonzero, Option.filter_eq_some_iff, decide_eq_true_eq, and_comm]
  exact and_congr_left fun nonzero =>
    ⟨fun member => coeff?_of_mem member nonzero, fun found => coeff?_mem found⟩

/-- Ordering keeps the coefficients that are not zero, as dropping the others does. -/
theorem coeff?_sort (m : Monomials) (product : PowerProduct) :
    m.sort.coeff? product = m.retainNonzero.coeff? product := by
  ext c
  rw [sort, retainNonzero, coeff?_ofNonzero, coeff?_ofNonzero, List.mem_mergeSort]

/-- The order of power products is the lexicographic one. -/
theorem productLe_iff : ∀ {a b : PowerProduct}, productLe a b = true ↔ a ≤ b
  | [], _ => by
    rw [productLe, ← not_lt]
    simp
  | _ :: _, [] => by
    rw [productLe, ← not_lt]
    simp
  | x :: left, y :: right => by
    rw [productLe, ← not_lt, List.cons_lt_cons_iff, Bool.or_eq_true, Bool.and_eq_true,
      productLe_iff, decide_eq_true_eq, beq_iff_eq]
    rcases Nat.lt_trichotomy x y with less | rfl | more
    · simp [less, Nat.lt_asymm less, Nat.ne_of_gt less]
    · simp
    · simp [more, Nat.lt_asymm more, Nat.ne_of_gt more]

/-- The power products of an ordered collection increase. -/
theorem increasing_sort (m : Monomials) : m.sort.toList.Pairwise (·.product < ·.product) := by
  have order : (m.toList.mergeSort fun a b => productLe a.product b.product).Pairwise
      fun a b => productLe a.product b.product = true := by
    apply List.pairwise_mergeSort
    · intro a b c first second
      rw [productLe_iff] at first second ⊢
      exact first.trans second
    · intro a b
      rw [Bool.or_eq_true, productLe_iff, productLe_iff]
      exact le_total _ _
  have distinct := m.tracked.distinct.perm (List.mergeSort_perm m.entries
    fun a b => productLe a.product b.product)
  rw [toList_sort]
  exact ((order.filter _).and distinct.filter).imp fun known =>
    lt_of_le_of_ne (productLe_iff.mp known.1) known.2

section Operations

/-- What can be done to a collection. -/
inductive Operation
  /-- Add a multiple of a power product. -/
  | add (c : ℚ) (product : PowerProduct)
  /-- Take out the monomial of a power product. -/
  | take (product : PowerProduct)
  /-- Drop zeros. -/
  | retainNonzero
  /-- Order, and drop zeros. -/
  | sort

/-- The collection after an operation. -/
def Operation.run : Operation → Monomials → Monomials
  | .add c product, m => m.add c product
  | .take product, m => (m.take product).2
  | .retainNonzero, m => m.retainNonzero
  | .sort, m => m.sort

/-- What an operation does to a map of power products to coefficients. -/
def Operation.act : Operation → (PowerProduct → Option ℚ) → PowerProduct → Option ℚ
  | .add c product, f => Function.update f product (some ((f product).getD 0 + c))
  | .take product, f => Function.update f product none
  | .retainNonzero, f => fun other => (f other).filter (· ≠ 0)
  | .sort, f => fun other => (f other).filter (· ≠ 0)

/-- The collection that operations make of the empty one. -/
def afterAll (operations : List Operation) : Monomials :=
  operations.foldl (fun m operation => operation.run m) {}

/-- The map that operations make of the empty one. -/
def mapAfterAll (operations : List Operation) : PowerProduct → Option ℚ :=
  operations.foldl (fun f operation => operation.act f) fun _ => none

/-- An operation changes the coefficients as it changes the map. -/
theorem coeff?_run (operation : Operation) (m : Monomials) :
    (operation.run m).coeff? = operation.act m.coeff? := by
  funext other
  cases operation with
  | add c product =>
    rw [Operation.run, coeff?_add, Operation.act, Function.update_apply]
  | take product =>
    rw [Operation.run, take, coeff?_blank, Operation.act, Function.update_apply]
  | retainNonzero => exact coeff?_retainNonzero m other
  | sort => exact (coeff?_sort m other).trans (coeff?_retainNonzero m other)

/-- Operations change the coefficients as they change the map. -/
theorem coeff?_afterAll (operations : List Operation) :
    (afterAll operations).coeff? = mapAfterAll operations := by
  have empty : ({} : Monomials).coeff? = fun _ => none :=
    funext fun _ => coeff?_empty
  unfold afterAll mapAfterAll
  rw [← empty]
  exact (List.foldl_hom coeff? fun m operation => (coeff?_run operation m).symm).symm

/-- Whatever was done to the empty collection, its coefficients are those of the map that the same
operations make, and so is the coefficient that is taken out. The monomials other than zero are the
members of the map other than zero, each once. A power product without a coefficient comes in last.
Dropping zeros leaves the other monomials where they are, and ordering leaves the same ones with
power products that increase. -/
theorem afterAll_refines (operations : List Operation) :
    (∀ product, (afterAll operations).coeff? product = mapAfterAll operations product) ∧
    (∀ product, ((afterAll operations).take product).1 = mapAfterAll operations product) ∧
    (∀ e : Monomial, e.coeff ≠ 0 → (e ∈ (afterAll operations).toList ↔
      mapAfterAll operations e.product = some e.coeff)) ∧
    (((afterAll operations).toList.filter (·.coeff ≠ 0)).map (·.product)).Nodup ∧
    (∀ c product, mapAfterAll operations product = none →
      ((afterAll operations).add c product).toList =
        (afterAll operations).toList ++ [⟨c, product⟩]) ∧
    (afterAll operations).retainNonzero.toList =
      (afterAll operations).toList.filter (·.coeff ≠ 0) ∧
    (afterAll operations).sort.toList.Perm ((afterAll operations).toList.filter (·.coeff ≠ 0)) ∧
    (afterAll operations).sort.toList.Pairwise (·.product < ·.product) := by
  have coefficients := coeff?_afterAll operations
  generalize afterAll operations = m at *
  rw [← coefficients]
  refine ⟨fun _ => rfl, fun _ => rfl, fun e nonzero => ?_, ?_, fun c product unknown => ?_,
    m.toList_retainNonzero, ?_, m.increasing_sort⟩
  · exact ⟨fun member => coeff?_of_mem member nonzero, coeff?_mem⟩
  · exact List.pairwise_map.mpr m.tracked.distinct.filter
  · exact toList_add_of_unknown unknown
  · exact (List.mergeSort_perm _ _).filter _

end Operations

end Stratagem.Monomials
