import Mathlib.Data.List.Nodup
import Mathlib.Data.String.Basic
import Stratagem.Parameter

/-!
# Parameter sets as finite maps

Values are kept in the order of their names, without two values under one name. Putting a value
under a name changes what is found under that name only, and of two sets that are merged the second
one counts where it gives a value.
-/
namespace Stratagem

namespace Named

variable {α : Type} {entries others : Named α} {entry : String × α} {key name : String} {v : α}

/-- What is found under a name in a list with a first entry. -/
theorem find?_cons (other : String) (held : α) (rest : Named α) (name : String) :
    find? ((other, held) :: rest) name = if name = other then some held else find? rest name := by
  unfold find?
  rw [List.lookup_cons]
  by_cases same : name = other
  · simp [same]
  · simp [same, beq_eq_false_iff_ne.mpr same]

/-- A value that is found is an entry. -/
theorem mem_of_find? (found : find? entries name = some v) : (name, v) ∈ entries := by
  obtain ⟨before, after, rfl, _⟩ := List.lookup_eq_some_iff.mp found
  exact List.mem_append_right _ (List.mem_cons_self ..)

/-- An entry under distinct names is found. -/
theorem find?_of_mem (distinct : (entries.map (·.1)).Nodup) (inside : (name, v) ∈ entries) :
    find? entries name = some v := by
  induction entries with
  | nil => cases inside
  | cons first rest later =>
    obtain ⟨other, held⟩ := first
    obtain ⟨new, distinct⟩ := List.nodup_cons.mp distinct
    rw [find?_cons]
    obtain same | member := List.mem_cons.mp inside
    · obtain ⟨rfl, rfl⟩ := Prod.mk.inj same
      exact if_pos rfl
    · have different : name ≠ other := fun same =>
        new (List.mem_map.mpr ⟨(name, v), member, same⟩)
      rw [if_neg different, later distinct member]

/-- A value that is put under a name is found there, and nothing else changes. -/
theorem find?_insert (entries : Named α) (key name : String) (v : α) :
    find? (insert key v entries) name = if name = key then some v else find? entries name := by
  induction entries with
  | nil => exact find?_cons key v [] name
  | cons entry rest later =>
    obtain ⟨other, held⟩ := entry
    unfold insert
    by_cases before : key < other
    · rw [if_pos before, find?_cons]
    · rw [if_neg before]
      by_cases same : key = other
      · subst same
        rw [if_pos rfl, find?_cons, find?_cons]
        split_ifs <;> rfl
      · rw [if_neg same, find?_cons, find?_cons, later]
        by_cases here : name = other
        · rw [if_pos here, if_pos here, if_neg (here.trans_ne (Ne.symm same))]
        · rw [if_neg here, if_neg here]

/-- An entry is the value that was put under a name, or was there before. -/
theorem mem_insert (inside : entry ∈ insert key v entries) : entry = (key, v) ∨ entry ∈ entries := by
  induction entries with
  | nil => exact .inl (List.mem_singleton.mp inside)
  | cons first rest later =>
    unfold insert at inside
    split_ifs at inside with before same
    · exact List.mem_cons.mp inside
    · exact (List.mem_cons.mp inside).imp_right (List.mem_cons_of_mem _)
    · obtain here | inside := List.mem_cons.mp inside
      · exact .inr (here ▸ List.mem_cons_self ..)
      · exact (later inside).imp_right (List.mem_cons_of_mem _)

/-- The names increase strictly. -/
def Sorted (entries : Named α) : Prop := entries.Pairwise fun a b => a.1 < b.1

/-- Names that increase strictly are distinct. -/
theorem Sorted.distinct (sorted : Sorted entries) : (entries.map (·.1)).Nodup :=
  List.pairwise_map.mpr (sorted.imp ne_of_lt)

/-- The names increase strictly after a value is put under one. -/
theorem Sorted.insert (sorted : Sorted entries) (key : String) (v : α) :
    Sorted (insert key v entries) := by
  induction entries with
  | nil => exact List.pairwise_singleton _ _
  | cons first rest later =>
    obtain ⟨other, held⟩ := first
    obtain ⟨below, rising⟩ := List.pairwise_cons.mp sorted
    unfold Named.insert
    split_ifs with before same
    · refine List.pairwise_cons.mpr ⟨fun entry inside => ?_, sorted⟩
      obtain rfl | inside := List.mem_cons.mp inside
      · exact before
      · exact lt_trans before (below entry inside)
    · subst same
      exact List.pairwise_cons.mpr ⟨below, rising⟩
    · refine List.pairwise_cons.mpr ⟨fun entry inside => ?_, later rising⟩
      obtain rfl | inside := mem_insert inside
      · exact lt_of_le_of_ne (not_lt.mp before) (Ne.symm same)
      · exact below entry inside

/-- Put all entries of a list into another one, in order. -/
def insertAll (entries others : Named α) : Named α :=
  others.foldl (fun entries (name, v) => insert name v entries) entries

/-- The names increase strictly after all entries of a list are put in. -/
theorem Sorted.insertAll (sorted : Sorted entries) (others : Named α) :
    Sorted (insertAll entries others) := by
  induction others generalizing entries with
  | nil => exact sorted
  | cons first rest later => exact later (sorted.insert first.1 first.2)

/-- Entries come from one of the two lists. -/
theorem mem_insertAll (inside : entry ∈ insertAll entries others) :
    entry ∈ others ∨ entry ∈ entries := by
  induction others generalizing entries with
  | nil => exact .inr inside
  | cons first rest later =>
    obtain inside | inside := later inside
    · exact .inl (List.mem_cons_of_mem _ inside)
    · obtain rfl | inside := mem_insert inside
      · exact .inl (List.mem_cons_self ..)
      · exact .inr inside

/-- The entries of a list under distinct names are found after they are put in, and what was there
before is found under the other names. -/
theorem find?_insertAll (distinct : (others.map (·.1)).Nodup) (entries : Named α) (name : String) :
    find? (insertAll entries others) name = (find? others name).or (find? entries name) := by
  induction others generalizing entries with
  | nil => rfl
  | cons first rest later =>
    obtain ⟨key, v⟩ := first
    obtain ⟨new, distinct⟩ := List.nodup_cons.mp distinct
    have step : insertAll entries ((key, v) :: rest) = insertAll (insert key v entries) rest := rfl
    rw [step, later distinct, find?_insert, find?_cons]
    by_cases same : name = key
    · have absent : find? rest name = none := by
        refine Option.eq_none_iff_forall_ne_some.mpr fun w found => new ?_
        exact List.mem_map.mpr ⟨(name, w), mem_of_find? found, same⟩
      rw [if_pos same, if_pos same, absent]
      rfl
    · rw [if_neg same, if_neg same]

end Named

namespace Params

variable {p other : Params} {entries : List (String × ParamValue)} {name : String} {v : ParamValue}

/-- A value that is found is in the set. -/
theorem mem_of_get? (found : p.get? name = some v) : (normalize name, v) ∈ p.entries :=
  Named.mem_of_find? found

/-- Of two sets that are merged, the second one counts where it gives a value. -/
theorem get?_merge (sorted : Named.Sorted other.entries) (p : Params) (name : String) :
    (p.merge other).get? name = (other.get? name).or (p.get? name) :=
  Named.find?_insertAll sorted.distinct ..

/-- Values are set under normal forms of their names. -/
theorem entries_ofList (entries : List (String × ParamValue)) :
    (ofList entries).entries = Named.insertAll [] (entries.map fun e => (normalize e.1, e.2)) := by
  unfold ofList Named.insertAll
  rw [List.foldl_map]
  exact (List.foldl_hom Params.entries fun _ _ => rfl).symm

/-- The names of values that are set increase strictly. -/
theorem sorted_ofList (entries : List (String × ParamValue)) :
    Named.Sorted (ofList entries).entries := by
  rw [entries_ofList]
  exact Named.Sorted.insertAll List.Pairwise.nil _

/-- A value that is found was set under a name of the same normal form. -/
theorem exists_of_get?_ofList (found : (ofList entries).get? name = some v) :
    ∃ e ∈ entries, normalize e.1 = normalize name ∧ e.2 = v := by
  have inside := mem_of_get? found
  rw [entries_ofList] at inside
  obtain inside | inside := Named.mem_insertAll inside
  · obtain ⟨e, member, same⟩ := List.mem_map.mp inside
    exact ⟨e, member, Prod.mk.inj same⟩
  · cases inside

/-- Values that are set under distinct names are found. -/
theorem get?_ofList (distinct : (entries.map fun e => normalize e.1).Nodup)
    (inside : (name, v) ∈ entries) : (ofList entries).get? name = some v := by
  have keys : ((entries.map fun e => (normalize e.1, e.2)).map (·.1)).Nodup := by
    rwa [List.map_map]
  have member : (normalize name, v) ∈ entries.map fun e => (normalize e.1, e.2) :=
    List.mem_map.mpr ⟨(name, v), inside, rfl⟩
  unfold get?
  rw [entries_ofList, Named.find?_insertAll keys, Named.find?_of_mem keys member]
  rfl

end Params

end Stratagem
