import Mathlib.Order.Lattice.Nat
import Stratagem.Proofs.Model

/-!
# Models as ordered maps

A model is a finite map of constants to values, listed in the order in which the constants came in.
A constant comes in with its first assignment since it was last dropped. Another value for it does
not move it, and dropping a constant moves no other, though all positions behind it change. So the
index is exact, and the order is that of the history, after any assignments and drops.
-/
namespace Stratagem.Model

/-- What can be done to a model. -/
inductive Operation
  /-- Assign a value to a constant. -/
  | insert (var value : TermId)
  /-- Drop the value of a constant. -/
  | erase (var : TermId)

/-- The model after an operation. -/
def Operation.run : Operation → Model → Model
  | .insert var value, m => m.insert var value
  | .erase var, m => m.erase var

/-- What an operation does to a map of constants to values. -/
def Operation.act : Operation → (TermId → Option TermId) → TermId → Option TermId
  | .insert var value, f => Function.update f var (some value)
  | .erase var, f => Function.update f var none

/-- The model that operations make of the empty one. -/
def afterAll (operations : List Operation) : Model :=
  operations.foldl (fun m operation => operation.run m) {}

/-- The map that operations make of the empty one. -/
def mapAfterAll (operations : List Operation) : TermId → Option TermId :=
  operations.foldl (fun f operation => operation.act f) fun _ => none

/-- The assignments to a constant since it was last dropped: those without a drop after them. -/
def assignments (operations : List Operation) (c : TermId) : Set ℕ :=
  {i | (∃ value, operations[i]? = some (.insert c value)) ∧
    ∀ j, i < j → operations[j]? ≠ some (.erase c)}

variable {m : Model} {operations : List Operation} {operation other : Operation}
  {c var value : TermId} {i : ℕ}

/-- A constant that is not assigned comes in last. -/
theorem map_fst_insert_of_eq_none (unknown : m.get? var = none) :
    (m.insert var value).entries.map Prod.fst = m.entries.map Prod.fst ++ [var] := by
  rw [entries_insert_of_eq_none unknown, List.map_append, List.map_singleton]

/-- Another value for a constant leaves the constants as they are. -/
theorem map_fst_insert_of_ne_none (known : m.get? var ≠ none) :
    (m.insert var value).entries.map Prod.fst = m.entries.map Prod.fst := by
  rw [entries_insert_of_ne_none known, List.map_map]
  refine List.map_congr_left fun entry _ => ?_
  dsimp only [Function.comp]
  split
  · next same => exact same.symm
  · rfl

/-- Dropping a constant leaves the others in their order. -/
theorem map_fst_erase (m : Model) (var : TermId) :
    (m.erase var).entries.map Prod.fst = (m.entries.map Prod.fst).filter (· ≠ var) := by
  rw [entries_erase, List.filter_map]
  rfl

/-- The operations of a history with one more at its end. -/
theorem getElem?_concat_iff : (operations ++ [operation])[i]? = some other ↔
    operations[i]? = some other ∨ i = operations.length ∧ operation = other := by
  rw [List.getElem?_append]
  grind

/-- Assignments are operations of the history. -/
theorem lt_of_mem_assignments (member : i ∈ assignments operations c) : i < operations.length := by
  obtain ⟨⟨value, assigned⟩, _⟩ := member
  exact (List.getElem?_eq_some_iff.mp assigned).1

/-- There are no assignments before the first operation. -/
theorem assignments_nil (c : TermId) : assignments [] c = ∅ :=
  Set.eq_empty_of_forall_notMem fun _ member => Nat.not_lt_zero _ (lt_of_mem_assignments member)

/-- An assignment is one more for its constant. -/
theorem mem_assignments_insert : i ∈ assignments (operations ++ [.insert var value]) c ↔
    i ∈ assignments operations c ∨ c = var ∧ i = operations.length := by
  have dropped (j : ℕ) : (operations ++ [.insert var value])[j]? = some (.erase c) ↔
      operations[j]? = some (.erase c) := by
    rw [getElem?_concat_iff, or_iff_left nofun]
  constructor
  · rintro ⟨⟨held, assigned⟩, kept⟩
    obtain old | ⟨last, same⟩ := getElem?_concat_iff.mp assigned
    · exact .inl ⟨⟨held, old⟩, fun j later => mt (dropped j).mpr (kept j later)⟩
    · cases same
      exact .inr ⟨rfl, last⟩
  · rintro (⟨⟨held, old⟩, kept⟩ | ⟨rfl, rfl⟩)
    · exact ⟨⟨held, getElem?_concat_iff.mpr (.inl old)⟩,
        fun j later => mt (dropped j).mp (kept j later)⟩
    · refine ⟨⟨value, getElem?_concat_iff.mpr (.inr ⟨rfl, rfl⟩)⟩, fun j later there => ?_⟩
      exact Nat.lt_asymm later (List.getElem?_eq_some_iff.mp ((dropped j).mp there)).1

/-- Dropping a constant ends its assignments, and no others. -/
theorem mem_assignments_erase : i ∈ assignments (operations ++ [.erase var]) c ↔
    c ≠ var ∧ i ∈ assignments operations c := by
  have assigned (held : TermId) : (operations ++ [.erase var])[i]? = some (.insert c held) ↔
      operations[i]? = some (.insert c held) := by
    rw [getElem?_concat_iff, or_iff_left nofun]
  constructor
  · rintro ⟨⟨held, there⟩, kept⟩
    have old := (assigned held).mp there
    have inside := (List.getElem?_eq_some_iff.mp old).1
    refine ⟨?_, ⟨held, old⟩, fun j later dropped => ?_⟩
    · rintro rfl
      exact kept operations.length inside (getElem?_concat_iff.mpr (.inr ⟨rfl, rfl⟩))
    · exact kept j later (getElem?_concat_iff.mpr (.inl dropped))
  · rintro ⟨differ, ⟨held, old⟩, kept⟩
    refine ⟨⟨held, (assigned held).mpr old⟩, fun j later dropped => ?_⟩
    obtain before | ⟨_, same⟩ := getElem?_concat_iff.mp dropped
    · exact kept j later before
    · cases same
      exact differ rfl

/-- After an assignment its constant has one, and the others have those that they had. -/
theorem nonempty_assignments_insert :
    (assignments (operations ++ [.insert var value]) c).Nonempty ↔
      (assignments operations c).Nonempty ∨ c = var := by
  simp only [Set.Nonempty, mem_assignments_insert, exists_or, exists_and_left, exists_eq, and_true]

/-- An assignment to a constant that has one is not the first. -/
theorem sInf_assignments_insert (old : (assignments operations c).Nonempty) :
    sInf (assignments (operations ++ [.insert var value]) c) = sInf (assignments operations c) := by
  have first := Nat.sInf_mem old
  apply le_antisymm
  · exact Nat.sInf_le (mem_assignments_insert.mpr (.inl first))
  · obtain before | ⟨_, last⟩ := mem_assignments_insert.mp
      (Nat.sInf_mem (nonempty_assignments_insert.mpr (.inl old)))
    · exact Nat.sInf_le before
    · rw [last]
      exact (lt_of_mem_assignments first).le

/-- An assignment to a constant that has none is the first. -/
theorem sInf_assignments_insert_self (new : ¬(assignments operations c).Nonempty) :
    sInf (assignments (operations ++ [.insert c value]) c) = operations.length := by
  obtain before | ⟨_, last⟩ := mem_assignments_insert.mp
    (Nat.sInf_mem (nonempty_assignments_insert.mpr (.inr rfl)))
  · exact absurd ⟨_, before⟩ new
  · exact last

/-- The constants of a model are those with assignments, in the order of their first ones. -/
structure Follows (m : Model) (operations : List Operation) : Prop where
  /-- A constant is listed if it was assigned since it was last dropped. -/
  listed : ∀ c, c ∈ m.entries.map Prod.fst ↔ (assignments operations c).Nonempty
  /-- The constants are listed in the order of their first assignments. -/
  ordered : (m.entries.map Prod.fst).Pairwise fun a b =>
    sInf (assignments operations a) < sInf (assignments operations b)

/-- The empty model has no constants, as nothing was assigned. -/
theorem Follows.nil : Follows {} [] where
  listed c := by simp [assignments_nil]
  ordered := .nil

/-- Assigning a value keeps constants in the order of their first assignments. -/
theorem Follows.insert (follows : Follows m operations) (var value : TermId) :
    Follows (m.insert var value) (operations ++ [.insert var value]) := by
  have kept : (m.entries.map Prod.fst).Pairwise fun a b =>
      sInf (assignments (operations ++ [.insert var value]) a) <
        sInf (assignments (operations ++ [.insert var value]) b) := by
    refine follows.ordered.imp_of_mem fun first second earlier => ?_
    rw [sInf_assignments_insert ((follows.listed _).mp first),
      sInf_assignments_insert ((follows.listed _).mp second)]
    exact earlier
  by_cases known : m.get? var = none
  · have new : ¬(assignments operations var).Nonempty :=
      mt (follows.listed var).mpr (get?_eq_none_iff.mp known)
    constructor
    · intro c
      rw [map_fst_insert_of_eq_none known, List.mem_append, List.mem_singleton, follows.listed,
        nonempty_assignments_insert]
    · rw [map_fst_insert_of_eq_none known, List.pairwise_append]
      refine ⟨kept, List.pairwise_singleton _ var, fun c member last same => ?_⟩
      obtain rfl := List.mem_singleton.mp same
      have old := (follows.listed c).mp member
      rw [sInf_assignments_insert old, sInf_assignments_insert_self new]
      exact lt_of_mem_assignments (Nat.sInf_mem old)
  · have old : (assignments operations var).Nonempty :=
      (follows.listed var).mp (not_not.mp (mt get?_eq_none_iff.mpr known))
    constructor
    · intro c
      rw [map_fst_insert_of_ne_none known, follows.listed, nonempty_assignments_insert]
      exact ⟨.inl, fun either => either.elim id (· ▸ old)⟩
    · rw [map_fst_insert_of_ne_none known]
      exact kept

/-- Dropping a constant keeps the others in the order of their first assignments. -/
theorem Follows.erase (follows : Follows m operations) (var : TermId) :
    Follows (m.erase var) (operations ++ [.erase var]) := by
  have same {c : TermId} (differ : c ≠ var) :
      assignments (operations ++ [.erase var]) c = assignments operations c :=
    Set.ext fun i => mem_assignments_erase.trans (and_iff_right differ)
  constructor
  · intro c
    rw [map_fst_erase, List.mem_filter, follows.listed, decide_eq_true_eq]
    simp only [Set.Nonempty, mem_assignments_erase, exists_and_left, and_comm]
  · rw [map_fst_erase]
    refine (follows.ordered.filter _).imp_of_mem fun first second earlier => ?_
    rw [same (of_decide_eq_true (List.mem_filter.mp first).2),
      same (of_decide_eq_true (List.mem_filter.mp second).2)]
    exact earlier

/-- The model that operations make has its constants in the order of their first assignments. -/
theorem afterAll_follows (operations : List Operation) :
    Follows (afterAll operations) operations := by
  induction operations using List.reverseRecOn with
  | nil => exact .nil
  | append_singleton before operation follows =>
    rw [afterAll, List.foldl_append, List.foldl_cons, List.foldl_nil]
    cases operation with
    | insert var value => exact follows.insert var value
    | erase var => exact follows.erase var

/-- An operation changes the values as it changes the map. -/
theorem get?_run (operation : Operation) (m : Model) :
    (operation.run m).get? = operation.act m.get? := by
  funext k
  cases operation with
  | insert var value => rw [Operation.run, get?_insert, Operation.act, Function.update_apply]
  | erase var => rw [Operation.run, get?_erase, Operation.act, Function.update_apply]

/-- Operations change the values as they change the map. -/
theorem get?_afterAll (operations : List Operation) :
    (afterAll operations).get? = mapAfterAll operations := by
  have empty : ({} : Model).get? = fun _ => none := funext get?_empty
  unfold afterAll mapAfterAll
  rw [← empty]
  exact (List.foldl_hom get? fun m operation => (get?_run operation m).symm).symm

/-- Whatever was done to the empty model, its index has the assigned constants at the positions of
their entries, and its values are those of the map that the same operations make. Each assigned
constant is listed once, in the order of the first assignments since constants were last dropped.
Another value for an assigned constant changes nothing else; a new constant comes in last; and
dropping a constant changes no other and keeps their order. -/
theorem afterAll_ordered (operations : List Operation) :
    (∀ (c : TermId) (i : ℕ), (afterAll operations).index[c]? = some i ↔
      ∃ value, (afterAll operations).entries[i]? = some (c, value)) ∧
    (∀ c, c ∈ (afterAll operations).index ↔ mapAfterAll operations c ≠ none) ∧
    (∀ c, (afterAll operations).get? c = mapAfterAll operations c) ∧
    (∀ c, (afterAll operations).contains c = (mapAfterAll operations c).isSome) ∧
    (∀ c value, (c, value) ∈ (afterAll operations).entries ↔
      mapAfterAll operations c = some value) ∧
    ((afterAll operations).entries.map Prod.fst).Nodup ∧
    (∀ c, mapAfterAll operations c ≠ none ↔ (assignments operations c).Nonempty) ∧
    ((afterAll operations).entries.map Prod.fst).Pairwise (fun a b =>
      sInf (assignments operations a) < sInf (assignments operations b)) ∧
    (∀ var value, mapAfterAll operations var ≠ none →
      ((afterAll operations).insert var value).entries = (afterAll operations).entries.map
        fun entry => if entry.1 = var then (var, value) else entry) ∧
    (∀ var value, mapAfterAll operations var = none →
      ((afterAll operations).insert var value).entries =
        (afterAll operations).entries ++ [(var, value)]) ∧
    (∀ var, ((afterAll operations).erase var).entries =
      (afterAll operations).entries.filter (·.1 ≠ var)) ∧
    (∀ var other, other ≠ var →
      ((afterAll operations).erase var).get? other = (afterAll operations).get? other) := by
  have values := get?_afterAll operations
  have follows := afterAll_follows operations
  generalize afterAll operations = m at *
  rw [← values]
  refine ⟨fun c i => ?_, fun c => ?_, fun _ => rfl, m.contains_eq, fun c value => ?_, m.nodup,
    fun c => ?_, follows.ordered, fun var value known => entries_insert_of_ne_none known value,
    fun var value unknown => entries_insert_of_eq_none unknown value, m.entries_erase,
    fun var other differ => ?_⟩
  · rw [m.located c i, List.getElem?_map, Option.map_eq_some_iff]
    constructor
    · rintro ⟨⟨_, value⟩, there, rfl⟩
      exact ⟨value, there⟩
    · exact fun ⟨value, there⟩ => ⟨(c, value), there, rfl⟩
  · rw [← Option.isSome_iff_ne_none, ← m.contains_eq]
    exact Std.HashMap.contains_iff_mem.symm
  · exact get?_eq_some_iff.symm
  · rw [← follows.listed, ← not_iff_not, not_not, get?_eq_none_iff]
  · rw [get?_erase, if_neg differ]

end Stratagem.Model
