import Stratagem.Converter.Model
import Stratagem.Proofs.Term.Traversal

/-!
# Values in models

What a model assigns after a constant is assigned or dropped, and what it assigns to a constant
given by its name and sort.
-/
namespace Stratagem.Model

open Store (Extends)

variable {m m' : Model} {s after : Store} {var value k c : TermId} {i : ℕ} {name : String}
  {sort : TermSort}

/-- The first of some assignments decides on its constant. -/
theorem lookup_cons (k other held : TermId) (rest : List (TermId × TermId)) :
    ((other, held) :: rest).lookup k = if k = other then some held else rest.lookup k := by
  rw [List.lookup_cons]
  cases same : k == other with
  | true => rw [if_pos (eq_of_beq same)]
  | false => rw [if_neg (ne_of_beq_false same)]

/-- The constants of a model differ. -/
theorem nodup (m : Model) : (m.entries.map Prod.fst).Nodup := by
  rw [List.nodup_iff_getElem?_ne_getElem?]
  intro i j less inside same
  have there := List.getElem?_eq_getElem inside
  exact Nat.ne_of_lt less (m.located.unique (same.trans there) there)

/-- The value of a constant is that of its entry. -/
theorem get?_eq_some_iff : m.get? k = some value ↔ (k, value) ∈ m.entries := by
  unfold get?
  rw [Option.bind_eq_some_iff]
  constructor
  · rintro ⟨i, found, held⟩
    obtain ⟨⟨other, kept⟩, there, rfl⟩ := Option.map_eq_some_iff.mp held
    have here := (m.located k i).mp found
    rw [List.getElem?_map, there] at here
    obtain rfl : other = k := Option.some.inj here
    exact List.mem_of_getElem? there
  · intro member
    obtain ⟨i, there⟩ := List.getElem?_of_mem member
    refine ⟨i, (m.located k i).mpr ?_, ?_⟩
    · rw [List.getElem?_map, there]
      rfl
    · rw [there]
      rfl

/-- The empty model gives no values. -/
@[simp] theorem get?_empty (k : TermId) : ({} : Model).get? k = none := by
  rw [Option.eq_none_iff_forall_ne_some]
  exact fun value found => List.not_mem_nil (get?_eq_some_iff.mp found)

/-- A constant without a value is not among those of a model. -/
theorem get?_eq_none_iff : m.get? k = none ↔ k ∉ m.entries.map Prod.fst := by
  rw [Option.eq_none_iff_forall_ne_some]
  constructor
  · intro unknown member
    obtain ⟨⟨_, value⟩, inside, rfl⟩ := List.mem_map.mp member
    exact unknown value (get?_eq_some_iff.mpr inside)
  · intro absent value found
    exact absent (List.mem_map_of_mem (get?_eq_some_iff.mp found))

/-- The index knows a constant if the constant has a value. -/
theorem getElem?_index_eq_none_iff : m.index[k]? = none ↔ m.get? k = none := by
  rw [get?_eq_none_iff, Option.eq_none_iff_forall_ne_some, List.mem_iff_getElem?, not_exists]
  exact forall_congr' fun i => not_congr (m.located k i)

/-- A constant is assigned if it has a value. -/
theorem contains_eq (m : Model) (k : TermId) : m.contains k = (m.get? k).isSome := by
  rw [contains, Std.HashMap.contains_eq_isSome_getElem?, Bool.eq_iff_iff,
    Option.isSome_iff_ne_none, Option.isSome_iff_ne_none]
  exact not_congr getElem?_index_eq_none_iff

/-- The entry of a constant with those before and after it, none of which is for the constant. -/
theorem exists_split (found : m.index[var]? = some i) : ∃ before held after,
    m.entries = before ++ (var, held) :: after ∧ before.length = i ∧
      (∀ entry ∈ before, entry.1 ≠ var) ∧ ∀ entry ∈ after, entry.1 ≠ var := by
  have here := (m.located var i).mp found
  rw [List.getElem?_map, Option.map_eq_some_iff] at here
  obtain ⟨⟨other, held⟩, there, rfl⟩ := here
  obtain ⟨inside, same⟩ := List.getElem?_eq_some_iff.mp there
  have whole : m.entries = m.entries.take i ++ (other, held) :: m.entries.drop (i + 1) := by
    rw [← same, ← List.drop_eq_getElem_cons inside, List.take_append_drop]
  have apart := m.nodup
  rw [whole, List.map_append, List.map_cons, List.nodup_middle, List.nodup_cons,
    List.mem_append, not_or] at apart
  refine ⟨_, held, _, whole, List.length_take_of_le (Nat.le_of_lt inside), ?_, ?_⟩
  · exact fun entry member equal => apart.1.1 (equal ▸ List.mem_map_of_mem member)
  · exact fun entry member equal => apart.1.2 (equal ▸ List.mem_map_of_mem member)

/-- The value of a constant is that of the first entry for it. -/
theorem get?_eq_lookup (m : Model) (k : TermId) : m.get? k = m.entries.lookup k := by
  ext value
  rw [get?_eq_some_iff, List.lookup_eq_some_iff]
  constructor
  · intro member
    obtain ⟨i, there⟩ := List.getElem?_of_mem member
    have found : m.index[k]? = some i := (m.located k i).mpr (by rw [List.getElem?_map, there]; rfl)
    obtain ⟨before, held, after, whole, rfl, early, _⟩ := exists_split found
    rw [whole, List.getElem?_append_right (Nat.le_refl _), Nat.sub_self] at there
    obtain rfl : held = value := by simpa using there
    exact ⟨before, after, whole, fun entry inside => bne_iff_ne.mpr (early entry inside).symm⟩
  · rintro ⟨before, after, whole, _⟩
    rw [whole]
    exact List.mem_append_right _ List.mem_cons_self

/-- An assigned constant gets another value, and nothing else changes. -/
theorem entries_insert_of_ne_none (known : m.get? var ≠ none) (value : TermId) :
    (m.insert var value).entries =
      m.entries.map fun entry => if entry.1 = var then (var, value) else entry := by
  unfold insert
  split
  · next i found =>
    obtain ⟨before, held, after, whole, rfl, early, late⟩ := exists_split found
    have stay {part : List (TermId × TermId)} (others : ∀ entry ∈ part, entry.1 ≠ var) :
        (part.map fun entry => if entry.1 = var then (var, value) else entry) = part :=
      (List.map_congr_left fun entry member => if_neg (others entry member)).trans (List.map_id _)
    simp only [whole]
    rw [List.set_append_right _ _ (Nat.le_refl _), Nat.sub_self, List.set_cons_zero,
      List.map_append, List.map_cons, stay early, stay late, if_pos rfl]
  · next unknown => exact absurd (getElem?_index_eq_none_iff.mp unknown) known

/-- A constant that is not assigned comes in last. -/
theorem entries_insert_of_eq_none (unknown : m.get? var = none) (value : TermId) :
    (m.insert var value).entries = m.entries ++ [(var, value)] := by
  unfold insert
  split
  · next i found =>
    rw [getElem?_index_eq_none_iff.mpr unknown] at found
    cases found
  · rfl

/-- The other constants stay as they are when one is dropped. -/
theorem entries_erase (m : Model) (var : TermId) :
    (m.erase var).entries = m.entries.filter (·.1 ≠ var) := by
  unfold erase
  split
  · next i found =>
    obtain ⟨before, held, after, whole, rfl, early, late⟩ := exists_split found
    have stay {part : List (TermId × TermId)} (others : ∀ entry ∈ part, entry.1 ≠ var) :
        part.filter (·.1 ≠ var) = part :=
      List.filter_eq_self.mpr fun entry member => decide_eq_true (others entry member)
    simp only [whole]
    rw [List.eraseIdx_append_of_length_le (Nat.le_refl _), Nat.sub_self, List.eraseIdx_cons_zero,
      List.filter_append, List.filter_cons_of_neg (by simp), stay early, stay late]
  · next unknown =>
    rw [getElem?_index_eq_none_iff, get?_eq_none_iff] at unknown
    refine (List.filter_eq_self.mpr fun entry member => decide_eq_true ?_).symm
    exact fun equal => unknown (equal ▸ List.mem_map_of_mem member)

/-- The values after a constant is assigned. -/
theorem get?_insert (m : Model) (var value k : TermId) :
    (m.insert var value).get? k = if k = var then some value else m.get? k := by
  split
  · next same =>
    subst same
    rw [get?_eq_some_iff]
    by_cases known : m.get? k = none
    · rw [entries_insert_of_eq_none known]
      exact List.mem_append_right _ (List.mem_singleton_self _)
    · obtain ⟨held, found⟩ := Option.ne_none_iff_exists'.mp known
      rw [entries_insert_of_ne_none known, List.mem_map]
      exact ⟨(k, held), get?_eq_some_iff.mp found, if_pos rfl⟩
  · next other =>
    ext w
    rw [get?_eq_some_iff, get?_eq_some_iff]
    by_cases known : m.get? var = none
    · simp [entries_insert_of_eq_none known, other]
    · rw [entries_insert_of_ne_none known, List.mem_map]
      constructor
      · rintro ⟨entry, member, equal⟩
        split at equal
        · exact absurd (congrArg Prod.fst equal).symm other
        · exact equal ▸ member
      · exact fun member => ⟨(k, w), member, if_neg other⟩

/-- The values after a constant is dropped. -/
theorem get?_erase (m : Model) (var k : TermId) :
    (m.erase var).get? k = if k = var then none else m.get? k := by
  ext w
  rw [get?_eq_some_iff, entries_erase, List.mem_filter, ← get?_eq_some_iff]
  split <;> simp [*]

/-- The values after constants are dropped. -/
theorem get?_foldl_erase (vars : List TermId) (m : Model) (k : TermId) :
    (vars.foldl erase m).get? k = if k ∈ vars then none else m.get? k := by
  induction vars generalizing m with
  | nil => simp
  | cons var rest tail =>
    rw [List.foldl_cons, tail, get?_erase]
    by_cases first : k = var <;> by_cases later : k ∈ rest <;> simp [first, later]

/-- The value of the constant with a name and a sort. -/
def constant? (m : Model) (s : Store) (name : String) (sort : TermSort) : Option TermId :=
  (m.entries.find? fun entry => s.node entry.1 == ⟨.var name, [], sort⟩).map Prod.snd

/-- A constant has one value, by its position or by its name and sort. -/
theorem constant?_eq_get? (node : s.node c = ⟨.var name, [], sort⟩) :
    m.constant? s name sort = m.get? c := by
  have inside : c < s.size := Store.lt_size_of_var (congrArg Node.op node)
  unfold constant?
  rw [get?_eq_lookup]
  induction m.entries with
  | nil => rfl
  | cons entry rest tail =>
    obtain ⟨k, held⟩ := entry
    rw [List.find?_cons, lookup_cons, ← tail]
    by_cases here : c = k
    · subst here
      rw [if_pos rfl, node, beq_self_eq_true]
      rfl
    · have other : ¬s.node k = ⟨.var name, [], sort⟩ := by
        intro equal
        have there : k < s.size := Store.lt_size_of_var (congrArg Node.op equal)
        exact here (Store.eq_of_node_eq inside there (node.trans equal.symm))
      rw [if_neg here, beq_false_of_ne other]

/-- A constant that is not in the store has no value. -/
theorem constant?_eq_none (absent : ∀ c, s.node c ≠ ⟨.var name, [], sort⟩) :
    m.constant? s name sort = none := by
  unfold constant?
  rw [Option.map_eq_none_iff, List.find?_eq_none]
  intro entry _ same
  exact absent entry.1 (eq_of_beq same)

/-- Constants and values are in the store. -/
def Within (m : Model) (s : Store) : Prop :=
  ∀ k value, m.get? k = some value → k < s.size ∧ value < s.size

/-- Models that agree on the positions of a constant agree on it, also when the store grows. -/
theorem constant?_congr (within : m.Within s) (grown : s.Extends after)
    (same : ∀ k, after.node k = ⟨.var name, [], sort⟩ → m'.get? k = m.get? k) :
    m'.constant? after name sort = m.constant? s name sort := by
  by_cases present : ∃ k, after.node k = ⟨.var name, [], sort⟩
  · obtain ⟨k, node⟩ := present
    rw [constant?_eq_get? node, same k node]
    by_cases inside : k < s.size
    · rw [grown.node_eq inside] at node
      rw [constant?_eq_get? node]
    · have unassigned : m.get? k = none := by
        rw [Option.eq_none_iff_forall_ne_some]
        exact fun value found => inside (within k value found).1
      rw [unassigned, constant?_eq_none]
      intro c other
      have there : c < s.size := Store.lt_size_of_var (congrArg Node.op other)
      obtain ⟨later, moved⟩ := grown.inside_and_node there
      have position : k < after.size := Store.lt_size_of_var (congrArg Node.op node)
      have equal := Store.eq_of_node_eq later position (moved.trans (other.trans node.symm))
      exact inside (equal ▸ there)
  · have absent : ∀ c, after.node c ≠ ⟨.var name, [], sort⟩ := fun c node => present ⟨c, node⟩
    rw [constant?_eq_none absent, constant?_eq_none]
    intro c node
    have there : c < s.size := Store.lt_size_of_var (congrArg Node.op node)
    exact absent c ((grown.node_eq there).trans node)

end Stratagem.Model
