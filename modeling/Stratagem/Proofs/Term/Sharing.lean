import Stratagem.Proofs.BitBlast.Spelling
import Stratagem.Proofs.Rewriting.Memory
import Stratagem.Proofs.Term.Substitution
import Stratagem.Proofs.Term.Unfolding

/-!
# Sharing

A store is built by calls: of the constructors of terms, of substitution, and of simplifiers. A call
whose arguments are in the store gives a term of the store and keeps the store in order. In a store
in order two terms are equal exactly if their trees are: heads with the same key are the same, since
an irrational number has one literal, and nodes with the same head, arguments and sort are the same,
since the table of the store is the inverse of its nodes. Fresh constants have names that are not
among the recorded ones, and every name in the store is recorded.
-/
namespace Stratagem

open Store (Extends)
open Terms

variable {s after : Store} {t u : TermId} {α : Type}

/-- The operator, in the one form of its number if it is an irrational literal. -/
def Op.canonical : Op → Op
  | algebraic a => algebraic a.canonical
  | op => op

/-- The one form of an operator mentions the same names. -/
theorem Op.names_canonical (op : Op) : op.canonical.names = op.names := by
  cases op <;> rfl

/-- The one form is canonical. -/
theorem Op.isCanonical_canonical (op : Op) : op.canonical.IsCanonical := by
  cases op with
  | algebraic a => exact a.canonical_canonical
  | _ => exact trivial

/-- The key of an operator is the operator unless it is an irrational literal. -/
theorem Op.key_eq_or (op : Op) : op.key = op ∨ ∃ a, op = algebraic a := by
  cases op with
  | algebraic a => exact .inr ⟨a, rfl⟩
  | _ => exact .inl rfl

/-- Irrational literals in their one form that have one key are the same. -/
theorem Op.algebraic_eq_of_key_eq {a b : Algebraic} (first : (algebraic a).IsCanonical)
    (second : (algebraic b).IsCanonical) (same : (algebraic a).key = (algebraic b).key) :
    algebraic a = algebraic b := by
  -- the one form forgets the interval just as the key does
  have forgotten : ({ a with interval := .point 0 } : Algebraic).canonical =
      ({ b with interval := .point 0 } : Algebraic).canonical :=
    congrArg Algebraic.canonical (Op.algebraic.inj same)
  have canonical : a.canonical = b.canonical := forgotten
  have first : a.canonical = a := first
  have second : b.canonical = b := second
  rw [← first, ← second, canonical]

/-- Canonical operators with one key are the same. -/
theorem Op.IsCanonical.eq_of_key_eq {op other : Op} (first : op.IsCanonical)
    (second : other.IsCanonical) (same : op.key = other.key) : op = other := by
  obtain plain | ⟨a, rfl⟩ := op.key_eq_or
  · obtain plain' | ⟨b, rfl⟩ := other.key_eq_or
    · rw [← plain, ← plain', same]
    · obtain rfl : op = algebraic { b with interval := .point 0 } := plain.symm.trans same
      exact algebraic_eq_of_key_eq first second same
  · obtain plain' | ⟨b, rfl⟩ := other.key_eq_or
    · obtain rfl : other = algebraic { a with interval := .point 0 } :=
        plain'.symm.trans same.symm
      exact algebraic_eq_of_key_eq first second same
    · exact algebraic_eq_of_key_eq first second same

/-- Lists are equal if their images are and members with equal images are equal. -/
theorem eq_of_map_eq {α β : Type} {f : α → β} :
    ∀ {as bs : List α}, (∀ a ∈ as, ∀ b ∈ bs, f a = f b → a = b) → as.map f = bs.map f → as = bs
  | [], [], _, _ => rfl
  | [], _ :: _, _, same => nomatch same
  | _ :: _, [], _, same => nomatch same
  | a :: as, b :: bs, each, same => by
    obtain ⟨first, rest⟩ := List.cons.inj same
    have first := each a (List.mem_cons_self ..) b (List.mem_cons_self ..) first
    have rest := eq_of_map_eq (fun a member b other =>
      each a (List.mem_cons_of_mem _ member) b (List.mem_cons_of_mem _ other)) rest
    rw [first, rest]

namespace Store

/-- The initial store is in order. -/
theorem orderly_initial : initial.Orderly where
  known t node found := by
    have bool : ∃ b, node.op = .bool b := by
      match t with
      | 0 => exact ⟨true, (congrArg Node.op (Option.some.inj found)).symm⟩
      | 1 => exact ⟨false, (congrArg Node.op (Option.some.inj found)).symm⟩
      | t + 2 => simp [initial] at found
    obtain ⟨b, head⟩ := bool
    rw [head]
    exact knows_of_isInterpreted rfl initial
  nodup := by decide

/-- In a store in order terms with one tree are one term. -/
theorem Orderly.eq_of_tree_eq (orderly : s.Orderly) (first : t < s.size) (second : u < s.size)
    (same : s.tree t = s.tree u) : t = u := by
  induction t using Nat.strongRecOn generalizing u with
  | ind t smaller =>
    rw [s.tree_eq t, s.tree_eq u] at same
    injection same with heads trees sorts
    have head : s.op t = s.op u :=
      (orderly.knows t).canonical.eq_of_key_eq (orderly.knows u).canonical heads
    have arguments : s.args t = s.args u := by
      refine eq_of_map_eq (fun a member b other => ?_) trees
      have before := lt_of_mem_args member
      exact smaller a before (before.trans first) ((lt_of_mem_args other).trans second)
    refine eq_of_node_eq first second ?_
    calc s.node t = ⟨s.op t, s.args t, s.sortOf t⟩ := rfl
      _ = ⟨s.op u, s.args u, s.sortOf u⟩ := by rw [head, arguments, sorts]
      _ = s.node u := rfl

/-- Recording names changes nothing but the names. -/
theorem withNames_eq (s : Store) (names : List String) :
    (s.withNames names).nodes = s.nodes ∧ (s.withNames names).sorts = s.sorts ∧
      ∀ name, name ∈ (s.withNames names).names ↔ name ∈ names ∨ name ∈ s.names := by
  induction names generalizing s with
  | nil => exact ⟨rfl, rfl, by simp [withNames]⟩
  | cons first rest others =>
    obtain ⟨nodes, sorts, recorded⟩ := others (s.withName first)
    refine ⟨nodes, sorts, fun name => (recorded name).trans ?_⟩
    simp only [withName, Std.HashSet.mem_insert, beq_iff_eq, List.mem_cons]
    tauto

end Store

namespace Terms

variable {names : List String} {op : Op} {args : List TermId} {sort : TermSort}

/-- Recording names keeps a store in order. -/
theorem recordNames_orderly (orderly : s.Orderly) :
    (recordNames names).Ensures s fun _ after => after.Orderly ∧ after.nodes = s.nodes ∧
      ∀ name ∈ names, name ∈ after.names := by
  obtain ⟨nodes, sorts, recorded⟩ := s.withNames_eq names
  exact ⟨orderly.of_nodes nodes sorts fun name member => (recorded name).mpr (.inr member), nodes,
    fun name member => (recorded name).mpr (.inl member)⟩

/-- Interning a node with a known operator keeps a store in order. -/
theorem intern_orderly (orderly : s.Orderly) (known : s.Knows op)
    (inside : ∀ a ∈ args, a < s.size) :
    (intern ⟨op, args, sort⟩).Ensures s fun t after => t < after.size ∧ after.Orderly := by
  refine ⟨(intern_node inside).1, ?_⟩
  unfold intern
  dsimp only
  split
  · exact orderly
  · next new =>
    split
    · next fits => exact orderly.add known new fits
    · exact orderly

/-- Recording a sort keeps a store in order. -/
theorem recordSort_orderly (orderly : s.Orderly) :
    (recordSort sort).Ensures s fun _ after => after.Orderly := orderly.withSort sort

/-- An application of a known operator keeps a store in order. -/
theorem mkApp_orderly (orderly : s.Orderly) (known : s.Knows op)
    (inside : ∀ a ∈ args, a < s.size) :
    (mkApp op args).Ensures s fun t after => t < after.size ∧ after.Orderly := by
  unfold mkApp
  refine ensures_read_bind ?_
  dsimp only
  split
  case h_4 => exact intern_orderly orderly known inside
  all_goals
    refine ensures_bind (recordSort_orderly orderly) fun _ after grown orderly => ?_
    exact intern_orderly orderly (Store.knows_of_isInterpreted rfl after) (grown.all_lt_size inside)

/-- Recording a sort and its parts keeps a store in order. -/
theorem declareSort_orderly (sort : TermSort) {s : Store} (orderly : s.Orderly) :
    (declareSort sort).Ensures s fun _ after => after.Orderly := by
  induction sort generalizing s with
  | array domain range first second =>
    refine ensures_bind (first orderly) fun _ _ _ orderly => ?_
    exact ensures_bind (second orderly) fun _ _ _ orderly => recordSort_orderly orderly
  | named name =>
    exact ensures_bind (recordNames_orderly orderly) fun _ _ _ known =>
      recordSort_orderly known.1
  | bool | int | real | bitVec => exact recordSort_orderly orderly

/-- A steady computation of a term keeps a store in order. -/
theorem Steady.orderly {work : Terms TermId} (steady : work.Steady s fun t after => t < after.size)
    (orderly : s.Orderly) :
    work.Ensures s fun t after => t < after.size ∧ after.Orderly := by
  refine (steady.ensures fun t after after' same inside => ?_).imp fun t after _ known =>
    ⟨known.1, known.2.2 orderly⟩
  show t < after'.nodes.size
  rwa [same]

/-- Either the first unused number is found, or all that were tried are used. -/
theorem firstUnused_or (used : Std.HashSet String) (stem : String) (tries count : ℕ) :
    stem ++ "!" ++ toString (firstUnused used stem tries count) ∉ used ∨
      ∀ i < tries, stem ++ "!" ++ toString (count + i) ∈ used := by
  induction tries generalizing count with
  | zero => exact .inr fun i none => absurd none (Nat.not_lt_zero i)
  | succ tries others =>
    unfold firstUnused
    split
    · next found =>
      refine (others (count + 1)).imp_right fun all i bound => ?_
      cases i with
      | zero => exact Std.HashSet.contains_iff_mem.mp found
      | succ i => exact Nat.succ_add_eq_add_succ count i ▸ all i (Nat.lt_of_succ_lt_succ bound)
    · next new => exact .inl fun member => new (Std.HashSet.contains_iff_mem.mpr member)

/-- One more number than there are names is enough to find one that is not used: the names made of
a stem and different numbers are different. -/
theorem firstUnused_not_mem (used : Std.HashSet String) (stem : String) (count : ℕ) :
    stem ++ "!" ++ toString (firstUnused used stem (used.size + 1) count) ∉ used := by
  refine (firstUnused_or used stem (used.size + 1) count).resolve_right fun all => ?_
  let tried := (List.range (used.size + 1)).map fun i => stem ++ "!" ++ toString (count + i)
  have nodup : tried.Nodup := List.nodup_range.map fun i j same =>
    Nat.add_left_cancel (Blaster.bitName_inj same).2
  have subset : tried ⊆ used.toList := by
    intro name member
    obtain ⟨i, bound, rfl⟩ := List.mem_map.mp member
    exact Std.HashSet.mem_toList.mpr (all i (List.mem_range.mp bound))
  have few := (List.subperm_of_subset nodup subset).length_le
  simp only [tried, List.length_map, List.length_range, Std.HashSet.length_toList] at few
  omega

/-- A constant is put into a store in order. -/
theorem mkVar_orderly (name : String) (sort : TermSort) (orderly : s.Orderly) :
    (mkVar name sort).Ensures s fun t after =>
      t < after.size ∧ after.Orderly ∧ after.node t = ⟨.var name, [], sort⟩ := by
  have kept : (mkVar name sort).Ensures s fun t after => t < after.size ∧ after.Orderly := by
    refine ensures_bind (recordNames_orderly orderly) fun _ _ _ known => ?_
    exact intern_orderly known.1 ⟨fun other member => known.2.2 other member, trivial⟩ (by simp)
  exact (kept.and (mkVar_node name sort)).imp fun t after _ found =>
    ⟨found.1.1, found.1.2, found.2.2⟩

/-- A fresh constant is put into a store in order; its name was not recorded. -/
theorem mkFresh_orderly (stem : String) (sort : TermSort) (orderly : s.Orderly) :
    (mkFresh stem sort).Ensures s fun t after => t < after.size ∧ after.Orderly ∧
      ∃ name, after.node t = ⟨.var name, [], sort⟩ ∧ name ∉ s.names := by
  refine ensures_read_bind ?_
  have counted (count : ℕ) : (recordFreshCount count).Ensures s fun _ after => after.Orderly :=
    orderly.of_nodes rfl rfl fun name member => member
  refine ensures_bind (counted _) fun _ _ _ orderly => ?_
  exact (mkVar_orderly _ sort orderly).imp fun t after _ found =>
    ⟨found.1, found.2.1, _, found.2.2, firstUnused_not_mem s.names stem s.freshCount⟩

end Terms

namespace Substitution

variable {map : Substitution}

/-- The images of a substitution are in a store. -/
def Within (map : Substitution) (s : Store) : Prop := ∀ t u : TermId, map[t]? = some u → u < s.size

/-- Images that are there are there when the store has grown. -/
theorem Within.mono (known : map.Within s) (grown : s.Extends after) : map.Within after :=
  fun t u found => grown.lt_size (known t u found)

/-- One more image that is there. -/
theorem Within.insert (known : map.Within s) (inside : u < s.size) :
    Within (map.insert t u) s := by
  intro t' u' found
  rw [Std.HashMap.getElem?_insert] at found
  split at found
  · exact Option.some.inj found ▸ inside
  · exact known t' u' found

/-- There are no images of the empty substitution. -/
theorem within_empty : Within ∅ s := by
  intro t u found
  simp at found

/-- The images that are not shadowed are there. -/
theorem Within.unshadowed (known : map.Within s) (now : Store) (vars : List Binder) :
    Within (Terms.unshadowed now vars map) s := by
  intro t u found
  rw [Terms.unshadowed, Std.HashMap.getElem?_filter'] at found
  exact known t u (Option.eq_some_of_filter_eq_some found)

end Substitution

namespace Terms

variable {map memo : Substitution}

/-- Substituting in terms one after the other gives terms of the store and keeps it in order if
substituting in each one does. -/
theorem mapM_orderly {visit : TermId → StateT Substitution Terms TermId} (terms : List TermId)
    (known : memo.Within s) (orderly : s.Orderly)
    (each : ∀ a ∈ terms, ∀ memo now, s.Extends now → memo.Within now → now.Orderly →
      ((visit a).run memo).Ensures now fun r after =>
        r.1 < after.size ∧ r.2.Within after ∧ after.Orderly) :
    ((terms.mapM visit).run memo).Ensures s fun r after =>
      (∀ u ∈ r.1, u < after.size) ∧ r.2.Within after ∧ after.Orderly := by
  refine (mapM_run_ensures (P := fun now found => found.Within now ∧ now.Orderly)
    (K := fun now u _ => u < now.size) (fun inside grown => grown.lt_size inside) terms
    ⟨known, orderly⟩ fun a member now memo grown ⟨known, orderly⟩ =>
      each a member memo now grown known orderly).imp fun r after _ ⟨all, known⟩ => ⟨?_, known⟩
  intro u member
  obtain ⟨_, _, inside⟩ := exists_of_forall₂ all member
  exact inside

/-- Substituting in a term gives a term of the store and keeps it in order. -/
theorem substituteTo_orderly {depth : ℕ} (images : map.Within s) (known : memo.Within s)
    (orderly : s.Orderly) (inside : t < s.size) :
    ((substituteTo map depth t).run memo).Ensures s fun r after =>
      r.1 < after.size ∧ r.2.Within after ∧ after.Orderly := by
  induction depth generalizing map memo s t with
  | zero => exact ensures_pure ⟨inside, known, orderly⟩
  | succ depth deeper =>
    unfold substituteTo
    cases found : map[t]? with
    | some image => exact ensures_pure ⟨images t image found, known, orderly⟩
    | none =>
      refine Replacement.ensures_get_bind ?_
      cases remembered : memo[t]? with
      | some u => exact ensures_pure ⟨known t u remembered, known, orderly⟩
      | none =>
        have arguments : ∀ a ∈ (s.node t).args, a < s.size := fun a member =>
          (Store.lt_of_mem_args member).trans inside
        have rest (args : List TermId) (memo : Substitution) (now : Store) (grown : s.Extends now)
            (inner : ∀ a ∈ args, a < now.size) (known : memo.Within now) (orderly : now.Orderly) :
            ((do
              let image ← rebuild t args
              modify (·.insert t image)
              return image : StateT Substitution Terms TermId).run memo).Ensures now
                fun r after => r.1 < after.size ∧ r.2.Within after ∧ after.Orderly := by
          show (rebuild t args >>= fun image => pure (image, memo.insert t image)).Ensures now _
          refine ensures_bind ((steady_rebuild (grown.lt_size inside) inner).orderly orderly) ?_
          rintro u after more ⟨inside, orderly⟩
          exact ensures_pure ⟨inside, (known.mono more).insert inside, orderly⟩
        refine Replacement.ensures_readThe_bind ?_
        dsimp only
        split
        · next vars binders =>
          have inner := images.unshadowed s vars
          refine Replacement.ensures_readThe_bind ?_
          show (((s.node t).args.mapM (substituteTo (unshadowed s vars map) depth)).run ∅ >>=
            fun r => (do
              let image ← rebuild t r.1
              modify (·.insert t image)
              return image : StateT Substitution Terms TermId).run memo).Ensures s _
          refine ensures_bind (mapM_orderly (s.node t).args Substitution.within_empty orderly
            fun a member memo now grown known orderly =>
              deeper (inner.mono grown) known orderly (grown.lt_size (arguments a member))) ?_
          rintro ⟨args, _⟩ now grown ⟨inner, _, orderly⟩
          exact rest args memo now grown inner (known.mono grown) orderly
        · rw [StateT.run_bind]
          refine ensures_bind (mapM_orderly (s.node t).args known orderly
            fun a member memo now grown known orderly =>
              deeper (images.mono grown) known orderly (grown.lt_size (arguments a member))) ?_
          rintro ⟨args, memo⟩ now grown ⟨inner, known, orderly⟩
          exact rest args memo now grown inner known orderly

/-- Substituting gives a term of the store and keeps it in order. -/
theorem substitute_orderly (images : map.Within s) (orderly : s.Orderly) (inside : t < s.size) :
    (substitute t map).Ensures s fun u after => u < after.size ∧ after.Orderly := by
  unfold substitute
  split
  · exact ensures_pure ⟨inside, orderly⟩
  · refine ensures_bind
      (substituteTo_orderly images Substitution.within_empty orderly inside) ?_
    rintro ⟨u, _⟩ after _ ⟨inside, _, orderly⟩
    exact ensures_pure ⟨inside, orderly⟩

end Terms

/-- A call that uses a store or adds to it. -/
inductive Call where
  /-- Record a name. -/
  | symbol (name : String)
  /-- Record a sort. -/
  | declare (sort : TermSort)
  /-- A term with a sort of its own. -/
  | intern (op : Op) (args : List TermId) (sort : TermSort)
  /-- An application whose sort follows from the arguments. -/
  | app (op : Op) (args : List TermId)
  /-- A constant. -/
  | var (name : String) (sort : TermSort)
  /-- A constant with a name not used before. -/
  | fresh (stem : String) (sort : TermSort)
  /-- A rational literal of either sort. -/
  | numeral (r : ℚ) (isInt : Bool)
  /-- A literal of the real sort. -/
  | realNumeral (n : Numeral)
  /-- A bit-vector literal. -/
  | bitVec (value : ℤ) (width : ℕ)
  /-- A conjunction. -/
  | and (args : List TermId)
  /-- A disjunction. -/
  | or (args : List TermId)
  /-- A sum. -/
  | add (args : List TermId)
  /-- A product. -/
  | mul (args : List TermId)
  /-- An application of a function without an interpretation. -/
  | apply (function : String) (args : List TermId) (sort : TermSort)
  /-- A universal quantification. -/
  | universal (vars : List Binder) (body : TermId)
  /-- An existential quantification. -/
  | existential (vars : List Binder) (body : TermId)
  /-- A term with other arguments. -/
  | rebuild (t : TermId) (args : List TermId)
  /-- A substitution. -/
  | substitute (t : TermId) (map : Substitution)
  /-- A simplifier rewrites a term. -/
  | simplify (r : Simplifier) (context : Context) (limit : ℕ) (t : TermId)

namespace Call

/-- The term that a call gives, if it gives one. -/
def run : Call → Terms (Option TermId)
  | symbol name => do recordNames [name]; return none
  | declare sort => do declareSort sort; return none
  | intern op args sort => some <$> Terms.intern ⟨op.canonical, args, sort⟩
  | app op args => some <$> mkApp op.canonical args
  | var name sort => some <$> mkVar name sort
  | fresh stem sort => some <$> mkFresh stem sort
  | numeral r isInt => some <$> mkNumeral r isInt
  | realNumeral n => some <$> mkRealNumeral n
  | bitVec value width => some <$> mkBitVec value width
  | and args => some <$> mkAnd args
  | or args => some <$> mkOr args
  | add args => some <$> mkAdd args
  | mul args => some <$> mkMul args
  | apply function args sort => some <$> mkApply function args sort
  | universal vars body => some <$> mkForall vars body
  | existential vars body => some <$> mkExists vars body
  | rebuild t args => some <$> Terms.rebuild t args
  | substitute t map => some <$> Terms.substitute t map
  | simplify r context limit t => do
    let (outcome, _) ← (Rewriting.simplifyWithin context limit t).runFrom r
    return outcome.toOption

/-- The arguments of a call are in the store: terms, the names of an operator that mentions some,
and the terms that a simplifier remembers. -/
def Valid (s : Store) : Call → Prop
  | intern op args _ | app op args =>
    (∀ name ∈ op.names, name ∈ s.names) ∧ ∀ a ∈ args, a < s.size
  | and args | or args | add args | mul args | apply _ args _ => ∀ a ∈ args, a < s.size
  | universal _ body | existential _ body => body < s.size
  | rebuild t args => t < s.size ∧ ∀ a ∈ args, a < s.size
  | substitute t map => t < s.size ∧ map.Within s
  | simplify r _ _ t => t < s.size ∧ r.Reachable s
  | _ => True

/-- A call whose arguments are there gives a term that is there, and keeps the store in order. -/
theorem run_orderly {c : Call} (valid : c.Valid s) (orderly : s.Orderly) :
    c.run.Ensures s fun t after => (∀ u ∈ t, u < after.size) ∧ after.Orderly := by
  have given {work : Terms TermId}
      (kept : work.Ensures s fun t after => t < after.size ∧ after.Orderly) :
      (some <$> work).Ensures s fun t after => (∀ u ∈ t, u < after.size) ∧ after.Orderly :=
    ensures_bind kept fun t after _ known =>
      ensures_pure ⟨fun u same => Option.some.inj same ▸ known.1, known.2⟩
  have canonical {op : Op} (names : ∀ name ∈ op.names, name ∈ s.names) : s.Knows op.canonical :=
    ⟨fun name member => names name (op.names_canonical ▸ member), op.isCanonical_canonical⟩
  have quantified {op : Op} {vars : List Binder} {body : TermId} (inside : body < s.size)
      (names : op.names = vars.map (·.name)) (noLiteral : op.IsCanonical) :
      (do declareBinders vars; Terms.intern ⟨op, [body], .bool⟩ : Terms TermId).Ensures s
        fun t after => t < after.size ∧ after.Orderly :=
    ensures_bind (recordNames_orderly orderly) fun _ after grown known =>
      intern_orderly known.1 ⟨fun name member => known.2.2 name (names ▸ member), noLiteral⟩
        (by simpa using grown.lt_size inside)
  cases c with
  | symbol name =>
    exact ensures_bind (recordNames_orderly orderly) fun _ _ _ known =>
      ensures_pure ⟨nofun, known.1⟩
  | declare sort =>
    exact ensures_bind (declareSort_orderly sort orderly) fun _ _ _ orderly =>
      ensures_pure ⟨nofun, orderly⟩
  | intern op args sort => exact given (intern_orderly orderly (canonical valid.1) valid.2)
  | app op args => exact given (mkApp_orderly orderly (canonical valid.1) valid.2)
  | var name sort =>
    exact given ((mkVar_orderly name sort orderly).imp fun _ _ _ known => ⟨known.1, known.2.1⟩)
  | fresh stem sort =>
    exact given ((mkFresh_orderly stem sort orderly).imp fun _ _ _ known => ⟨known.1, known.2.1⟩)
  | numeral r isInt => exact given ((steady_mkNumeral .all r isInt).orderly orderly)
  | realNumeral n => exact given ((steady_mkRealNumeral .all n).orderly orderly)
  | bitVec value width => exact given ((steady_mkBitVec .all value width).orderly orderly)
  | and args =>
    have head : Store.Kind.all.Head .and := Op.composes_of_isInterpreted rfl
    exact given ((steady_mkAnd head valid).orderly orderly)
  | or args => exact given ((steady_mkOr (K := .all) valid).orderly orderly)
  | add args => exact given ((steady_mkAdd (K := .all) valid).orderly orderly)
  | mul args => exact given ((steady_mkMul (K := .all) valid).orderly orderly)
  | apply function args sort =>
    exact given (ensures_bind (recordNames_orderly orderly) fun _ _ grown known =>
      intern_orderly known.1 ⟨fun name member => known.2.2 name member, trivial⟩
        (grown.all_lt_size valid))
  | universal vars body => exact given (quantified valid rfl trivial)
  | existential vars body => exact given (quantified valid rfl trivial)
  | rebuild t args => exact given ((steady_rebuild valid.1 valid.2).orderly orderly)
  | substitute t map => exact given (substitute_orderly valid.2 orderly valid.1)
  | simplify r context limit t =>
    have recalls : Rewriting.Recalls r.config True r s :=
      { Rewriting.recalls_of_reachable valid.2 with order := fun _ => orderly }
    refine ensures_bind (Rewriting.simplifyWithin_visits recalls) ?_
    rintro ⟨outcome, r'⟩ after _ known
    cases outcome with
    | ok u =>
      exact ensures_pure ⟨fun v same => Option.some.inj same ▸ known.2.1, known.1.order trivial⟩
    | error => exact ensures_pure ⟨nofun, known.1.order trivial⟩

end Call
namespace Store

/-- Calls one after the other, each with arguments that are there. -/
inductive Evolves (s : Store) : Store → Prop
  /-- No call. -/
  | none : Evolves s s
  /-- Calls, and one more. -/
  | call {later : Store} (before : Evolves s later) (c : Call) (valid : c.Valid later) :
    Evolves s (c.run.run later).2

namespace Evolves

variable {later : Store}

/-- Calls lose no terms. -/
theorem grown (evolves : s.Evolves later) : s.Extends later := by
  induction evolves with
  | none => exact .refl s
  | call _ c _ grown => exact grown.trans (c.run.grows _)

/-- Calls keep a store in order. -/
theorem orderly (evolves : s.Evolves later) (orderly : s.Orderly) : later.Orderly := by
  induction evolves with
  | none => exact orderly
  | call _ c valid orderly => exact (Call.run_orderly valid orderly).2

end Evolves

/-- Terms are shared in every store that is built by calls. The table is the inverse of the nodes,
arguments stand before their terms, and no sort is recorded twice. Terms keep their nodes, and so
their heads, arguments and sorts, through all further calls. Two terms are one exactly if their
trees are, in which irrational literals are told apart by polynomial and position of the root.
Calls give terms of the store, and fresh constants have names that were not recorded, as those of
all terms are. -/
theorem shared_of_evolves {later : Store} (built : initial.Evolves s) (further : s.Evolves later) :
    (∀ (node : Node) (t : TermId), s.table[node]? = some t ↔ s.nodes[t]? = some node) ∧
    (∀ t < s.size, ∀ a ∈ s.args t, a < t) ∧ s.sorts.toList.Nodup ∧
    (∀ t < s.size, t < later.size ∧ later.node t = s.node t) ∧
    (∀ t < s.size, ∀ u < s.size, t = u ↔ s.tree t = s.tree u) ∧
    (∀ c : Call, c.Valid s → c.run.Ensures s fun t after => ∀ u ∈ t, u < after.size) ∧
    ∀ (stem : String) (sort : TermSort), (mkFresh stem sort).Ensures s fun t after =>
      ∃ name, after.node t = ⟨.var name, [], sort⟩ ∧ name ∉ s.names ∧
        ∀ u < s.size, name ∉ (s.op u).names := by
  have orderly := built.orderly orderly_initial
  refine ⟨s.exact, fun t _ a => lt_of_mem_args, orderly.nodup,
    fun t inside => further.grown.inside_and_node inside, fun t first u second => ?_,
    fun c valid => (Call.run_orderly valid orderly).1, fun stem sort => ?_⟩
  · exact ⟨fun same => congrArg s.tree same, orderly.eq_of_tree_eq first second⟩
  · obtain ⟨_, _, name, node, new⟩ := mkFresh_orderly stem sort orderly
    exact ⟨name, node, new, fun u _ member => new ((orderly.knows u).names name member)⟩

/-- A constant, and then its negation. -/
theorem shared_of_evolves_case :
    let x := ((mkVar "x" .int).run initial).1
    let s := ((Call.var "x" .int).run.run initial).2
    let later := ((Call.app .neg [x]).run.run s).2
    initial.Evolves s ∧ s.Evolves later ∧ x < s.size ∧ later.node x = ⟨.var "x", [], .int⟩ ∧
      ∀ t < s.size, ∀ u < s.size, t = u ↔ s.tree t = s.tree u := by
  intro x s later
  obtain ⟨inside, _, node⟩ : x < s.size ∧ s.Orderly ∧ s.node x = ⟨.var "x", [], .int⟩ :=
    mkVar_orderly "x" .int orderly_initial
  have built : initial.Evolves s := .call .none (.var "x" .int) trivial
  have valid : (Call.app .neg [x]).Valid s := ⟨by simp [Op.names], by simpa using inside⟩
  have further : s.Evolves later := .call .none (.app .neg [x]) valid
  obtain ⟨_, _, _, kept, shared, _⟩ := shared_of_evolves built further
  exact ⟨built, further, inside, (kept x inside).2.trans node, shared⟩

end Store
end Stratagem
