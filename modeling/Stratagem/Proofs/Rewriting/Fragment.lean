import Stratagem.Proofs.Rewriting.Effort
import Stratagem.Proofs.Term.Traversal

/-!
# Fragments with normal forms

A fragment is a set of terms, closed under arguments, for which the rules bring a term whose
arguments are in a form into that form again, with a bounded number of further steps. Simplifying a
term of the fragment then brings it into the form, whatever the simplifier has done before, and fails
only by the limit on the steps. Terms are remembered, so each term below the result is charged once:
the steps taken so far and the charges that are left never grow together.
-/
namespace Stratagem.Rewriting

open Terms Rule

/-- Terms that the rules of a configuration bring into a form. -/
structure Fragment (config : SimplifierConfig) where
  /-- The terms of the fragment. -/
  Member : Store → TermId → Prop
  /-- A term of the fragment is brought into the form of another one. -/
  Result : Store → TermId → TermId → Prop
  /-- Further steps after the arguments of a term are done. -/
  extra : ℕ
  /-- Members are in the store. -/
  inside : ∀ {s : Store} {t : TermId}, Member s t → t < s.size
  /-- Arguments of members are members. -/
  args : ∀ {s : Store} {t a : TermId}, Member s t → a ∈ s.args t → Member s a
  /-- Members stay when the store grows. -/
  mono : ∀ {s after : Store} {t : TermId}, Member s t → s.Extends after → Member after t
  /-- Terms do not become members when the store grows. -/
  back : ∀ {s after : Store} {t : TermId}, s.Extends after → t < s.size → Member after t → Member s t
  /-- Results stay when the store grows. -/
  lasting : ∀ {s after : Store} {t u : TermId}, s.Extends after → Member s t → Result s t u →
    Result after t u
  /-- What the rules make of a member whose arguments have been brought into the form. -/
  concluded : ∀ {context : Context} {limit fuel : ℕ} {r : Simplifier} {s : Store} {t : TermId}
    {args : List TermId}, r.config = config → Member s t → List.Forall₂ (Result s) (s.args t) args →
    Brief context limit fuel extra (do
      let t' ← (rebuild t args : Terms TermId)
      conclude (visit context limit fuel) t') r s fun u after => Result after t u

namespace Fragment

variable {config : SimplifierConfig} (F : Fragment config) {context : Context} {limit fuel n : ℕ}
  {r r' r'' : Simplifier} {s after : Store} {t u : TermId} {e : Error}

/-- What a simplifier remembers about members are results. -/
structure Knows (r : Simplifier) (s : Store) : Prop where
  /-- The rules are those of the configuration. -/
  config : r.config = config
  /-- Remembered results of members are results. -/
  memo : ∀ t u, r.memo[t]? = some u → t < s.size ∧ (F.Member s t → F.Result s t u)

variable {F}

namespace Knows

/-- What a simplifier knows it still knows when the store grows. -/
theorem mono (known : F.Knows r s) (grown : s.Extends after) : F.Knows r after where
  config := known.config
  memo t u found := by
    obtain ⟨inside, result⟩ := known.memo t u found
    refine ⟨grown.lt_size inside, fun member => ?_⟩
    have before := F.back grown inside member
    exact F.lasting grown before (result before)

/-- Nothing is known to a simplifier without memory. -/
theorem of_empty (same : r.config = config) (empty : r.memo = ∅) : F.Knows r s :=
  ⟨same, fun t u found => by simp [empty] at found⟩

/-- Counts do not matter. -/
theorem congr (known : F.Knows r s) (same : r'.config = r.config) (memo : r'.memo = r.memo) :
    F.Knows r' s :=
  ⟨same.trans known.config, fun t u found => known.memo t u (memo ▸ found)⟩

/-- One more result is remembered, if the rewriting was complete. -/
theorem noted {depth : Option ℕ} (known : F.Knows r s) (inside : t < s.size)
    (result : depth = none → F.Member s t → F.Result s t u) : F.Knows (noted depth t u r) s := by
  unfold Rewriting.noted
  split
  · next complete =>
    refine ⟨known.config, fun t' u' found => ?_⟩
    dsimp only at found
    rw [Std.HashMap.getElem?_insert] at found
    split at found
    · next same =>
      obtain rfl := eq_of_beq same
      obtain rfl := Option.some.inj found
      exact ⟨inside, result (Option.isNone_iff_eq_none.mp complete)⟩
    · exact known.memo t' u' found
  · exact known

end Knows

section Charges

variable (F)

/-- The steps taken and the charges for the terms below a position that are not remembered. -/
def potential (r : Simplifier) (n : ℕ) : ℕ := r.steps + (F.extra + 1) * r.memo.missing n

variable {F}

/-- The steps alone are no more. -/
theorem steps_le_potential (r : Simplifier) (n : ℕ) : r.steps ≤ F.potential r n :=
  Nat.le_add_right _ _

/-- More positions, more charges. -/
theorem potential_mono {m : ℕ} (le : m ≤ n) : F.potential r m ≤ F.potential r n :=
  Nat.add_le_add_left (Nat.mul_le_mul_left _ (Nat.count_monotone _ le)) _

/-- A term that is not remembered is charged. -/
theorem potential_of_none (new : r.memo[t]? = none) (below : t < n) :
    F.potential r t + F.extra + 1 ≤ F.potential r n := by
  have charged : F.potential r (t + 1) = F.potential r t + F.extra + 1 := by
    unfold potential
    rw [Substitution.missing_succ_of_none new]
    ring
  exact charged ▸ potential_mono below

variable (F)

/-- Terms below a position have been visited: nothing else is remembered, and the steps are paid by
the charges. -/
structure Paid (n : ℕ) (r r' : Simplifier) : Prop where
  /-- Steps are only added. -/
  grows : r.steps ≤ r'.steps
  /-- What is remembered about other terms stays. -/
  later : ∀ t, n ≤ t → r'.memo[t]? = r.memo[t]?
  /-- Steps and charges do not grow together. -/
  potential : ∀ m, n ≤ m → F.potential r' m ≤ F.potential r m

/-- Visiting terms below a position has failed: in a run without other bounds by the limit, which is
less than steps and charges together. -/
structure Exceeded (context : Context) (limit fuel n : ℕ) (e : Error) (r : Simplifier) : Prop where
  /-- The steps are exceeded. -/
  limited : context = .unbounded → e = .stepsExceeded limit
  /-- The limit is too small. -/
  reached : context = .unbounded → limit < r.steps + fuel → limit < F.potential r n

variable {F}

/-- Nothing has been visited. -/
theorem Paid.refl (n : ℕ) (r : Simplifier) : F.Paid n r r :=
  ⟨Nat.le_refl _, fun _ _ => rfl, fun _ _ => Nat.le_refl _⟩

/-- One visit after the other. -/
theorem Paid.trans (first : F.Paid n r r') (second : F.Paid n r' r'') : F.Paid n r r'' where
  grows := Nat.le_trans first.grows second.grows
  later t le := (second.later t le).trans (first.later t le)
  potential m le := Nat.le_trans (second.potential m le) (first.potential m le)

/-- A position further on. -/
theorem Paid.mono {m : ℕ} (paid : F.Paid m r r') (le : m ≤ n) : F.Paid n r r' where
  grows := paid.grows
  later t after := paid.later t (Nat.le_trans le after)
  potential k after := paid.potential k (Nat.le_trans le after)

/-- A failure after some visits. -/
theorem Exceeded.of_paid {m : ℕ} (exceeded : F.Exceeded context limit fuel m e r')
    (paid : F.Paid n r r') (le : m ≤ n) : F.Exceeded context limit fuel n e r where
  limited := exceeded.limited
  reached free enough := by
    have grows := paid.grows
    have before := exceeded.reached free (by omega)
    have further : F.potential r' m ≤ F.potential r' n := potential_mono le
    have charged := paid.potential n (Nat.le_refl n)
    omega

end Charges

section Visits

/-- A visit keeps what is known, and brings members into the form. -/
def Served (F : Fragment config) (context : Context) (limit fuel : ℕ) : Prop :=
  ∀ (depth : Option ℕ) (t : TermId) {r : Simplifier} {s : Store}, F.Knows r s →
    (visit context limit fuel depth t).Ensures r s
      (fun u r' after => F.Knows r' after ∧ (depth = none → F.Member s t →
        F.Result after t u ∧ F.Paid (t + 1) r r'))
      (fun e r' after => F.Knows r' after ∧ (depth = none → F.Member s t →
        F.Exceeded context limit fuel (t + 1) e r))

/-- Rewriting a member: the arguments are paid by their charges, and the rules by further steps. -/
theorem rewriteWith_member (served : F.Served context limit fuel) (known : F.Knows r s)
    (member : F.Member s t) :
    (rewriteWith (visit context limit fuel) none t).Ensures r s
      (fun u r' after => F.Knows r' after ∧ F.Result after t u ∧
        ∃ middle, F.Paid t r middle ∧ Spent F.extra middle r')
      (fun e r' after => F.Knows r' after ∧ (context = .unbounded → e = .stepsExceeded limit) ∧
        (context = .unbounded → limit < r.steps + fuel → limit < F.potential r t + F.extra)) := by
  apply Attempt.ensures_read_bind
  have each : ∀ a ∈ s.args t, ∀ r' now, s.Extends now → F.Paid t r r' → F.Knows r' now →
      (visit context limit fuel none a).Ensures r' now
        (fun b r'' after => F.Paid t r' r'' ∧ F.Knows r'' after ∧ (F.Member after a ∧
          F.Result after a b))
        (fun e r' after => F.Knows r' after ∧ (context = .unbounded → e = .stepsExceeded limit) ∧
          (context = .unbounded → limit < r.steps + fuel →
            limit < F.potential r t + F.extra)) := by
    intro a inside r' now grown paid known
    have argument := F.mono (F.args member inside) grown
    have below : a + 1 ≤ t := Store.lt_of_mem_args inside
    apply (served none a known).imp
    · intro b r'' after more result
      obtain ⟨found, cost⟩ := result.2 rfl argument
      exact ⟨cost.mono below, result.1, F.mono argument more, found⟩
    · intro e r'' after _ failure
      have exceeded := (failure.2 rfl argument).of_paid paid below
      refine ⟨failure.1, exceeded.limited, fun free enough => ?_⟩
      have reached := exceeded.reached free enough
      omega
  have lasting : ∀ (a b : TermId) (x y : Simplifier) (before after : Store), F.Paid t x y →
      before.Extends after → F.Member before a ∧ F.Result before a b →
      F.Member after a ∧ F.Result after a b :=
    fun a b _ _ _ _ _ more related => ⟨F.mono related.1 more, F.lasting more related.1 related.2⟩
  apply Attempt.ensures_bind (Attempt.ensures_mapM_leads (Paid.refl t)
    (fun _ _ _ => Paid.trans) lasting (s.args t) known each)
  rintro args middle now grown ⟨paid, known, results⟩
  have results : List.Forall₂ (F.Result now) (now.args t) args := by
    rw [grown.args_eq (F.inside member)]
    exact results.imp fun _ _ related => related.2
  have ruled : Brief context limit fuel F.extra (do
      let t' ← (rebuild t args : Terms TermId)
      conclude (visit context limit fuel) t') middle now fun u after => F.Result after t u :=
    F.concluded known.config (F.mono member grown) results
  apply Attempt.Ensures.imp ruled
  · intro u r' after more result
    exact ⟨(known.mono more).congr result.1.config result.1.memo, result.2, middle, paid, result.1⟩
  · intro e r' after more stopped
    refine ⟨(known.mono more).congr stopped.config stopped.memo, stopped.limited,
      fun free enough => ?_⟩
    have grows := paid.grows
    have reached := stopped.reached free (by omega)
    have steps : middle.steps ≤ F.potential middle t := steps_le_potential middle t
    have charged := paid.potential t (Nat.le_refl t)
    omega

/-- Rewriting any term keeps what is known. -/
theorem rewriteWith_keeps (served : F.Served context limit fuel) (depth : Option ℕ)
    (known : F.Knows r s) :
    (rewriteWith (visit context limit fuel) depth t).Ensures r s
      (fun _ r' after => F.Knows r' after) (fun _ r' after => F.Knows r' after) := by
  have visited (depth : Option ℕ) (a : TermId) (r : Simplifier) (s : Store) (known : F.Knows r s) :
      (visit context limit fuel depth a).Ensures r s (fun _ r' after => F.Knows r' after)
        (fun _ r' after => F.Knows r' after) :=
    (served depth a known).imp (fun _ _ _ _ result => result.1) fun _ _ _ _ failure => failure.1
  apply Attempt.ensures_read_bind
  have each : ∀ a ∈ s.args t, ∀ r' now, s.Extends now → F.Knows r' now →
      (visit context limit fuel (below depth) a).Ensures r' now
        (fun _ r'' after => F.Knows r'' after ∧ True) (fun _ r' after => F.Knows r' after) :=
    fun a _ r' now _ known => (visited (below depth) a r' now known).imp
      (fun _ _ _ _ known => ⟨known, trivial⟩) fun _ _ _ _ known => known
  apply Attempt.ensures_bind (Attempt.ensures_mapM (fun _ _ _ _ _ _ => trivial) (s.args t) known
    each)
  rintro args r' now _ ⟨known, _⟩
  apply Attempt.ensures_build_bind_of_all
  intro t' middle grown
  have known := known.mono grown
  have any : (reduce t').Ensures r'.config middle fun _ _ => True := fun _ => trivial
  apply ensures_runRule_bind any
  intro o tally last grown _
  have known := known.mono grown
  have idle : F.Knows { r' with tally } last := known.congr rfl rfl
  have counted : F.Knows { r' with tally, rewritten := r'.rewritten + 1 } last :=
    known.congr rfl rfl
  cases o with
  | failed => exact Attempt.ensures_pure_bind (Attempt.ensures_pure idle)
  | done w => exact Attempt.ensures_modify_bind (Attempt.ensures_pure counted)
  | revisit again w => exact Attempt.ensures_modify_bind (visited (some again) w _ last counted)
  | revisitAll w => exact Attempt.ensures_modify_bind (visited none w _ last counted)

/-- Every visit keeps what is known, and brings members into the form. -/
theorem served (F : Fragment config) (context : Context) (limit fuel : ℕ) :
    F.Served context limit fuel := by
  induction fuel with
  | zero =>
    intro depth t r s known
    refine Attempt.ensures_throw ⟨known, fun _ _ => ⟨fun _ => rfl, fun _ enough => ?_⟩⟩
    have steps : r.steps ≤ F.potential r (t + 1) := steps_le_potential r (t + 1)
    omega
  | succ fuel served =>
    intro depth t r s known
    by_cases stop : depth = some 0
    · subst stop
      exact Attempt.ensures_pure ⟨known, nofun⟩
    apply visit_cases stop
    · intro u complete old
      refine ⟨known.congr rfl rfl, fun _ member => ⟨(known.memo t u old).2 member, ?_⟩⟩
      exact ⟨Nat.le_refl _, fun _ _ => rfl, fun _ _ => Nat.le_refl _⟩
    · intro e new reason
      refine ⟨known.congr rfl rfl, fun complete member => ?_⟩
      rcases reason with ⟨rfl, exceeded⟩ | bounded | outside
      · refine ⟨fun _ => rfl, fun _ _ => ?_⟩
        have steps : r.steps ≤ F.potential r t := steps_le_potential r t
        have charged : F.potential r t + F.extra + 1 ≤ F.potential r (t + 1) :=
          potential_of_none (new complete) (Nat.lt_succ_self t)
        omega
      · exact ⟨fun free => absurd free bounded, fun free => absurd free bounded⟩
      · exact absurd outside (Nat.not_le_of_lt (F.inside member))
    · intro new inside
      have known : F.Knows { r with visited := r.visited + 1, steps := r.steps + 1 } s :=
        known.congr rfl rfl
      by_cases complete : depth = none ∧ F.Member s t
      · obtain ⟨rfl, member⟩ := complete
        have new := new rfl
        have charged (m : ℕ) (le : t + 1 ≤ m) : F.potential r t + F.extra + 1 ≤ F.potential r m :=
          potential_of_none new le
        have stepped (m : ℕ) :
            F.potential { r with visited := r.visited + 1, steps := r.steps + 1 } m =
              F.potential r m + 1 := Nat.add_right_comm _ _ _
        apply (rewriteWith_member served known member).imp
        · rintro u r' after grown ⟨known, result, middle, paid, spent⟩
          refine ⟨known.noted (grown.lt_size inside) fun _ _ => result, fun _ _ => ⟨result, ?_⟩⟩
          have memo : ∀ x, t ≤ x → r'.memo[x]? = r.memo[x]? := by
            intro x le
            rw [spent.memo]
            exact paid.later x le
          have new' : r'.memo[t]? = none := (memo t (Nat.le_refl t)).trans new
          refine ⟨?_, fun x le => ?_, fun m le => ?_⟩
          · have grows : r.steps + 1 ≤ middle.steps := paid.grows
            have more := spent.grows
            show r.steps ≤ r'.steps
            omega
          · show (r'.memo.insert t u)[x]? = r.memo[x]?
            have different : t ≠ x := Nat.ne_of_lt le
            rw [Std.HashMap.getElem?_insert, if_neg (by simpa using different)]
            exact memo x (Nat.le_of_lt le)
          · have fewer : Substitution.missing (r'.memo.insert t u) m + 1 = r'.memo.missing m :=
              Substitution.missing_insert new' le
            have same : r'.memo.missing m = middle.memo.missing m := by rw [spent.memo]
            have cost := paid.potential m (by omega)
            rw [stepped] at cost
            have steps := spent.steps
            show r'.steps + (F.extra + 1) * Substitution.missing (r'.memo.insert t u) m ≤ _
            have scaled : (F.extra + 1) * middle.memo.missing m =
                (F.extra + 1) * Substitution.missing (r'.memo.insert t u) m + F.extra + 1 := by
              rw [← same, ← fewer]
              ring
            unfold potential at cost ⊢
            omega
        · rintro e r' after _ ⟨known, limited, reached⟩
          refine ⟨known, fun _ _ => ⟨limited, fun free enough => ?_⟩⟩
          have bound := reached free (by dsimp only; omega)
          rw [stepped] at bound
          have more := charged (t + 1) (Nat.le_refl _)
          omega
      · have other : depth = none → ¬F.Member s t := fun none member => complete ⟨none, member⟩
        apply (rewriteWith_keeps served depth known).imp
        · intro u r' after grown known
          refine ⟨known.noted (grown.lt_size inside) fun none member => ?_,
            fun none member => absurd member (other none)⟩
          exact absurd (F.back grown inside member) (other none)
        · exact fun e r' after _ known => ⟨known, fun none member => absurd member (other none)⟩

end Visits

section Runs

/-- Simplifying any term keeps what is known. -/
theorem simplifyWithin_keeps (known : F.Knows r s) :
    (simplifyWithin context limit t).Ensures r s (fun _ r' after => F.Knows r' after)
      (fun _ r' after => F.Knows r' after) := by
  have known : F.Knows { r with steps := 0 } s := known.congr rfl rfl
  apply Attempt.ensures_modify_bind
  exact (F.served context limit (limit + 1) none t known).imp (fun _ _ _ _ result => result.1)
    fun _ _ _ _ failure => failure.1

/-- The fragment without terms. -/
def empty (config : SimplifierConfig) : Fragment config where
  Member _ _ := False
  Result _ _ _ := False
  extra := 0
  inside := nofun
  args := nofun
  mono := nofun
  back := nofun
  lasting := nofun
  concluded := nofun

/-- Whatever a simplifier did before, what it remembers about members are results. -/
theorem knows_of_reachable (reachable : r.Reachable s) :
    ∀ F : Fragment r.config, F.Knows r s := by
  induction reachable with
  | start => exact fun F => .of_empty rfl rfl
  | grow _ grown known => exact fun F => (known F).mono grown
  | reset => exact fun F => .of_empty rfl rfl
  | @simplify r r' s after context limit t outcome _ run known =>
    have kept (F : Fragment r.config) : F.Knows r' after := by
      have ensured : (simplifyWithin context limit t).Ensures r s
          (fun _ r' after => F.Knows r' after) (fun _ r' after => F.Knows r' after) :=
        simplifyWithin_keeps (known F)
      unfold Attempt.Ensures Terms.Ensures at ensured
      rw [run] at ensured
      cases outcome with
      | ok => exact ensured
      | error => exact ensured
    -- The configuration never changes, so the fragment is one of the simplifier before.
    rw [(kept (empty r.config)).config]
    exact kept

/-- Simplifying a member brings it into the form, and fails only by the limit on the steps. -/
theorem simplifyWithin_member (known : F.Knows r s) (member : F.Member s t) :
    (simplifyWithin .unbounded limit t).Ensures r s
      (fun u _ after => F.Result after t u)
      (fun e _ _ => e = .stepsExceeded limit ∧ limit < (F.extra + 1) * (t + 1)) := by
  have known : F.Knows { r with steps := 0 } s := known.congr rfl rfl
  apply Attempt.ensures_modify_bind
  apply (F.served .unbounded limit (limit + 1) none t known).imp
  · exact fun u _ after _ result => (result.2 rfl member).1
  · intro e _ _ _ failure
    have exceeded := failure.2 rfl member
    have reached := exceeded.reached rfl (by dsimp only; omega)
    have few : (F.extra + 1) * r.memo.missing (t + 1) ≤ (F.extra + 1) * (t + 1) :=
      Nat.mul_le_mul_left _ (Substitution.missing_le _ _)
    unfold potential at reached
    exact ⟨exceeded.limited rfl, by dsimp only at reached; omega⟩

end Runs

end Fragment

end Stratagem.Rewriting
