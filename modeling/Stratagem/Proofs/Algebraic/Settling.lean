import Mathlib.Analysis.SpecificLimits.Basic
import Mathlib.Topology.Instances.Real.Lemmas
import Stratagem.Proofs.Algebraic.Order
import Stratagem.Proofs.Algebraic.Value

/-!
# Refinement ends

A loop that refines until a condition holds refuses for lack of rounds only, and returns when the
rounds suffice to meet the condition (`Algebraic.Compute.Loop.settles`). This is how a root is
selected, since every candidate but one is in the end apart from what the operands admit
(`Algebraic.settles_selectRoot`), and how numerals are compared and their integral part is found.
-/

/-!
## Intervals that shrink to a real

Halving makes the interval of a numeral, and that of a located root, shrink to the number
(`Interval.Shrinks`). The arithmetic of intervals is continuous: the sum, the product and the powers
of shrinking intervals shrink to the result. Intervals that shrink to different reals are apart in
the end.
-/

namespace Stratagem

open Filter Topology

namespace Interval

/-- The intervals hold a real and their ends tend to it. -/
structure Shrinks (ranges : ℕ → Interval) (x : ℝ) : Prop where
  /-- The real is in all of them. -/
  holds : ∀ n, (ranges n).Holds x
  /-- The lower ends tend to it. -/
  lo : Tendsto (fun n => ((ranges n).lo : ℝ)) atTop (𝓝 x)
  /-- The upper ends tend to it. -/
  hi : Tendsto (fun n => ((ranges n).hi : ℝ)) atTop (𝓝 x)

variable {ranges others : ℕ → Interval} {range : Interval} {x y : ℝ}

theorem shrinks_point (r : ℚ) : Shrinks (fun _ => point r) r :=
  ⟨fun _ => holds_point r, tendsto_const_nhds, tendsto_const_nhds⟩

/-- Members of the intervals tend to the real. -/
theorem Shrinks.tendsto (known : Shrinks ranges x) {f : ℕ → ℝ}
    (inside : ∀ n, (ranges n).Holds (f n)) : Tendsto f atTop (𝓝 x) :=
  tendsto_of_tendsto_of_tendsto_of_le_of_le known.lo known.hi (fun n => (inside n).1)
    fun n => (inside n).2

/-- Intervals around a real whose widths are halved shrink to it. -/
theorem shrinks_of_width (holds : ∀ n, (ranges n).Holds x) (width : ℚ)
    (narrow : ∀ n, (ranges n).width ≤ width / 2 ^ n) : Shrinks ranges x := by
  have vanishing : Tendsto (fun n : ℕ => (width : ℝ) / 2 ^ n) atTop (𝓝 0) :=
    tendsto_const_nhds.div_atTop (tendsto_pow_atTop_atTop_of_one_lt one_lt_two)
  have bound (n : ℕ) : ((ranges n).hi : ℝ) - (ranges n).lo ≤ width / 2 ^ n := by
    exact_mod_cast narrow n
  refine ⟨holds, ?_, ?_⟩
  · have low := vanishing.const_sub x
    rw [sub_zero] at low
    refine tendsto_of_tendsto_of_tendsto_of_le_of_le low tendsto_const_nhds (fun n => ?_)
      fun n => (holds n).1
    linarith [bound n, (holds n).2]
  · have high := vanishing.const_add x
    rw [add_zero] at high
    refine tendsto_of_tendsto_of_tendsto_of_le_of_le tendsto_const_nhds high
      (fun n => (holds n).2) fun n => ?_
    linarith [bound n, (holds n).1]

/-! ### Arithmetic -/

theorem Shrinks.add (first : Shrinks ranges x) (second : Shrinks others y) :
    Shrinks (fun n => (ranges n).add (others n)) (x + y) := by
  refine ⟨fun n => (first.holds n).add (second.holds n), ?_, ?_⟩
  · simpa [Interval.add] using first.lo.add second.lo
  · simpa [Interval.add] using first.hi.add second.hi

/-- The ends of a product are products of ends. -/
theorem Shrinks.mul (first : Shrinks ranges x) (second : Shrinks others y) :
    Shrinks (fun n => (ranges n).mul (others n)) (x * y) := by
  refine ⟨fun n => (first.holds n).mul (second.holds n), ?_, ?_⟩
  · have least := (((first.lo.mul second.lo).min (first.lo.mul second.hi)).min
      (first.hi.mul second.lo)).min (first.hi.mul second.hi)
    simpa [Interval.mul, Rational.least_eq_min] using least
  · have greatest := (((first.lo.mul second.lo).max (first.lo.mul second.hi)).max
      (first.hi.mul second.lo)).max (first.hi.mul second.hi)
    simpa [Interval.mul, Rational.greatest_eq_max] using greatest

theorem Shrinks.power (known : Shrinks ranges x) (k : ℕ) :
    Shrinks (fun n => (ranges n).power k) (x ^ k) := by
  choose s t first last low high using
    fun n => exists_power_eq (known.holds n).lo_le_hi k
  refine ⟨fun n => (known.holds n).power k, ?_, ?_⟩
  · simpa [low] using (known.tendsto first).pow k
  · simpa [high] using (known.tendsto last).pow k

theorem Shrinks.hull (first : Shrinks ranges x) (second : Shrinks others x) :
    Shrinks (fun n => (ranges n).hull (others n)) x := by
  refine ⟨fun n => (first.holds n).hull _, ?_, ?_⟩
  · simpa [hull_eq] using first.lo.min second.lo
  · simpa [hull_eq] using first.hi.max second.hi

/-! ### Separation -/

/-- Intervals that shrink to different reals do not meet in the end. -/
theorem Shrinks.eventually_not_overlaps (first : Shrinks ranges x) (second : Shrinks others y)
    (different : x ≠ y) : ∀ᶠ n in atTop, (ranges n).overlaps (others n) = false := by
  rcases different.lt_or_gt with below | above
  · filter_upwards [first.hi.eventually_lt second.lo below] with n apart
    have apart : (ranges n).hi < (others n).lo := by exact_mod_cast apart
    rw [overlaps, Bool.and_eq_false_iff, decide_eq_false_iff_not, decide_eq_false_iff_not]
    exact .inr (not_le.mpr apart)
  · filter_upwards [second.hi.eventually_lt first.lo above] with n apart
    have apart : (others n).hi < (ranges n).lo := by exact_mod_cast apart
    rw [overlaps, Bool.and_eq_false_iff, decide_eq_false_iff_not, decide_eq_false_iff_not]
    exact .inl (not_le.mpr apart)

/-- Another real is not in the intervals in the end. -/
theorem Shrinks.eventually_not_holds (known : Shrinks ranges x) (different : y ≠ x) :
    ∀ᶠ n in atTop, ¬(ranges n).Holds y := by
  rcases different.lt_or_gt with below | above
  · filter_upwards [known.lo.eventually_const_lt below] with n outside holds
    exact outside.not_ge holds.1
  · filter_upwards [known.hi.eventually_lt_const above] with n outside holds
    exact outside.not_ge holds.2

end Interval

/-! ### Halving -/

theorem Poly.locates_iterate_bisect {q : Poly} {range : Interval} {x : ℝ}
    (separable : q.toPolynomial.Separable) (known : range.Locates q x) (n : ℕ) :
    (q.bisect^[n] range).Locates q x := by
  induction n with
  | zero => exact known
  | succ n ih =>
    rw [Function.iterate_succ_apply']
    exact locates_bisect separable ih

/-- Halving an interval that locates a root shrinks it to the root. -/
theorem Poly.shrinks_iterate_bisect {q : Poly} {range : Interval} {x : ℝ}
    (separable : q.toPolynomial.Separable) (known : range.Locates q x) :
    Interval.Shrinks (fun n => q.bisect^[n] range) x := by
  have wide : 0 ≤ range.width := sub_nonneg.mpr known.holds.lo_le_hi
  refine Interval.shrinks_of_width (fun n => (locates_iterate_bisect separable known n).holds)
    range.width fun n => ?_
  induction n with
  | zero => simp
  | succ n ih =>
    rw [Function.iterate_succ_apply']
    rcases width_bisect q (q.bisect^[n] range) with point | half
    · rw [Interval.width, Interval.isPoint_iff.mp point, sub_self]
      positivity
    · rw [half, pow_succ, ← div_div]
      linarith

namespace Numeral

theorem iterate_refine_rational (r : ℚ) (n : ℕ) : refine^[n] (rational r) = rational r :=
  Function.iterate_fixed rfl n

theorem iterate_refine_irrational (x : Algebraic) (n : ℕ) :
    refine^[n] (irrational x) = irrational (Algebraic.refine^[n] x) := by
  induction n with
  | zero => rfl
  | succ n ih => rw [Function.iterate_succ_apply', Function.iterate_succ_apply', ih, refine]

end Numeral

theorem Algebraic.Represents.shrinks {a : Algebraic} {x : ℝ} (known : a.Represents x) :
    Interval.Shrinks (fun n => (Algebraic.refine^[n] a).interval) x := by
  refine Interval.shrinks_of_width (fun n => ?_) a.interval.width fun n => ?_
  · have isolates := (known.iterate_refine n).isolates
    exact ⟨isolates.lo_lt.le, isolates.lt_hi.le⟩
  · exact (width_iterate_refine a n).le

/-- Halving shrinks the interval of a numeral to the number. -/
theorem Numeral.Represents.shrinks {a : Numeral} {x : ℝ} (known : a.Represents x) :
    Interval.Shrinks (fun n => (Numeral.refine^[n] a).interval) x := by
  cases a with
  | rational r =>
    rw [← (known : (r : ℝ) = x)]
    simpa only [iterate_refine_rational, interval] using Interval.shrinks_point r
  | irrational a =>
    simpa only [iterate_refine_irrational, interval] using Algebraic.Represents.shrinks known

namespace Algebraic

variable {α β σ : Type}

namespace Compute

/-- Under limits that allow a degree, the computation refuses for lack of rounds only, and returns
when there are enough. -/
structure Settles (work : Compute α) (degree : ℕ) : Prop where
  /-- It refuses for lack of rounds only. -/
  refuses : ∀ limits : Limits, degree ≤ limits.maxDegree → ∀ tally error,
    (work.run limits tally).1 = .error error → error = .refinementLimit limits.maxRefinements
  /-- With enough rounds it returns. -/
  returns : ∃ enough, ∀ limits : Limits, degree ≤ limits.maxDegree →
    enough ≤ limits.maxRefinements → ∀ tally, ∃ a, (work.run limits tally).1 = .ok a

variable {work : Compute α} {degree : ℕ}

theorem settles_pure (a : α) : (pure a : Compute α).Settles degree where
  refuses _ _ _ _ refused := by cases refused
  returns := ⟨0, fun _ _ _ _ => ⟨a, rfl⟩⟩

theorem settles_count_bind {more : Tally → Tally} {next : Unit → Compute β}
    (settles : (next ()).Settles degree) : (count more >>= next).Settles degree where
  refuses limits fits tally := settles.refuses limits fits (more tally)
  returns := by
    obtain ⟨enough, returns⟩ := settles.returns
    exact ⟨enough, fun limits fits rounds tally => returns limits fits rounds (more tally)⟩

theorem settles_bind_pure (settles : work.Settles degree) (f : α → β) :
    (work >>= fun a => pure (f a)).Settles degree where
  refuses limits fits tally error refused := by
    rw [run_bind] at refused
    split at refused
    · cases refused
    · next same =>
      cases refused
      exact settles.refuses limits fits tally error (by rw [same])
  returns := by
    obtain ⟨enough, returns⟩ := settles.returns
    refine ⟨enough, fun limits fits rounds tally => ?_⟩
    obtain ⟨a, returned⟩ := returns limits fits rounds tally
    refine ⟨f a, ?_⟩
    rw [run_bind]
    generalize work.run limits tally = result at returned
    obtain ⟨_ | _, after⟩ := result
    · cases returned
    · cases returned
      rfl

theorem run_checkDegree_bind {checked : ℕ} {next : Unit → Compute β} {limits : Limits}
    (tally : Tally) :
    (checkDegree checked >>= next).run limits tally =
      if limits.maxDegree < checked then
        (.error (.degreeExceeded checked limits.maxDegree), tally)
      else (next ()).run limits tally := by
  have bound : (checkDegree checked).run limits tally =
      (if limits.maxDegree < checked then throw (.degreeExceeded checked limits.maxDegree)
        else pure () : Compute Unit).run limits tally := rfl
  rw [run_bind, bound]
  by_cases above : limits.maxDegree < checked
  · rw [if_pos above, if_pos above]
    rfl
  · rw [if_neg above, if_neg above]
    rfl

theorem settles_checkDegree_bind {checked : ℕ} {next : Unit → Compute β} (small : checked ≤ degree)
    (settles : (next ()).Settles degree) : (checkDegree checked >>= next).Settles degree := by
  have run (limits : Limits) (fits : degree ≤ limits.maxDegree) (tally : Tally) :
      (checkDegree checked >>= next).run limits tally = (next ()).run limits tally := by
    rw [run_checkDegree_bind, if_neg (by omega)]
  refine ⟨fun limits fits tally => ?_, ?_⟩
  · rw [run limits fits]
    exact settles.refuses limits fits tally
  · obtain ⟨enough, returns⟩ := settles.returns
    refine ⟨enough, fun limits fits rounds tally => ?_⟩
    rw [run limits fits]
    exact returns limits fits rounds tally

/-! ### Loops -/

/-- A loop that refines a state in each round until a condition holds. The states satisfy an
invariant. -/
structure Loop (body : ℕ → σ → Compute α) (invariant stops : σ → Prop) (next : σ → σ) : Prop where
  /-- Without rounds it refuses. -/
  zero : ∀ s, body 0 s = outOfRounds
  /-- It returns when the condition holds. -/
  stop : ∀ rounds s, invariant s → stops s → ∃ a, body (rounds + 1) s = pure a
  /-- Otherwise it goes on with the next state. -/
  step : ∀ rounds s, invariant s → ¬stops s →
    ∃ more, body (rounds + 1) s = count more >>= fun _ => body rounds (next s)
  /-- The invariant is kept. -/
  keeps : ∀ s, invariant s → invariant (next s)

variable {body : ℕ → σ → Compute α} {invariant stops : σ → Prop} {next : σ → σ} {s : σ}

theorem Loop.refuses (loop : Loop body invariant stops next) (rounds : ℕ) (start : invariant s)
    {limits : Limits} {tally : Tally} {error : AlgebraicError}
    (refused : ((body rounds s).run limits tally).1 = .error error) :
    error = .refinementLimit limits.maxRefinements := by
  induction rounds generalizing s tally with
  | zero =>
    rw [loop.zero] at refused
    cases refused
    rfl
  | succ rounds ih =>
    by_cases stopped : stops s
    · obtain ⟨a, same⟩ := loop.stop rounds s start stopped
      rw [same] at refused
      cases refused
    · obtain ⟨more, same⟩ := loop.step rounds s start stopped
      rw [same] at refused
      have later : ((body rounds (next s)).run limits (more tally)).1 = .error error := refused
      exact ih (loop.keeps s start) later

theorem Loop.returns (loop : Loop body invariant stops next) {n : ℕ}
    (ends : stops (next^[n] s)) (start : invariant s) {rounds : ℕ} (enough : n < rounds)
    {limits : Limits} (tally : Tally) : ∃ a, ((body rounds s).run limits tally).1 = .ok a := by
  induction n generalizing s rounds tally with
  | zero =>
    obtain ⟨rounds, rfl⟩ := Nat.exists_eq_succ_of_ne_zero enough.ne'
    obtain ⟨a, same⟩ := loop.stop rounds s start ends
    exact ⟨a, by rw [same]; rfl⟩
  | succ n ih =>
    obtain ⟨rounds, rfl⟩ := Nat.exists_eq_succ_of_ne_zero (Nat.zero_lt_of_lt enough).ne'
    by_cases stopped : stops s
    · obtain ⟨a, same⟩ := loop.stop rounds s start stopped
      exact ⟨a, by rw [same]; rfl⟩
    · obtain ⟨more, same⟩ := loop.step rounds s start stopped
      rw [same]
      exact ih ends (loop.keeps s start) (Nat.lt_of_succ_lt_succ enough) (more tally)

/-- A loop whose condition is met in the end settles. -/
theorem Loop.settles (loop : Loop body invariant stops next) (start : invariant s)
    (ends : ∃ n, stops (next^[n] s)) :
    (read >>= fun limits => body limits.maxRefinements s : Compute α).Settles degree := by
  obtain ⟨n, ends⟩ := ends
  exact ⟨fun limits _ tally error => loop.refuses limits.maxRefinements start,
    n + 1, fun limits _ enough tally => loop.returns ends start enough tally⟩

end Compute

open Compute

/-! ### The selection of a root -/

/-- Different ranges for different roots: a range for each root of a list. -/
theorem exists_map_of_forall₂ {related : Interval → ℝ → Prop} {ranges : List Interval}
    {roots : List ℝ} (each : List.Forall₂ related ranges roots) (distinct : roots.Nodup) :
    ∃ place : ℝ → Interval, ranges = roots.map place ∧ ∀ y ∈ roots, related (place y) y := by
  induction each with
  | nil => exact ⟨fun _ => .point 0, rfl, by simp⟩
  | @cons range x ranges roots known _ ih =>
    obtain ⟨fresh, distinct⟩ := List.nodup_cons.mp distinct
    obtain ⟨place, rfl, located⟩ := ih distinct
    refine ⟨Function.update place x range, ?_, fun y member => ?_⟩
    · rw [List.map_cons, Function.update_self]
      congr 1
      refine List.map_congr_left fun y member => (Function.update_of_ne ?_ _ _).symm
      rintro rfl
      exact fresh member
    · rcases List.mem_cons.mp member with rfl | later
      · rwa [Function.update_self]
      · rw [Function.update_of_ne]
        · exact located y later
        · rintro rfl
          exact fresh later

/-- At every stage of their refinement the operands admit the ranges of a real, and in the end they
do not admit ranges that shrink to another one. -/
structure Selects (admits : σ → Interval → Bool) (refine' : σ → σ) (operands : σ) (x : ℝ) :
    Prop where
  /-- The ranges of the real are admitted. -/
  admitted : ∀ n range, range.Holds x → admits (refine'^[n] operands) range = true
  /-- Ranges that shrink to another real are not, in the end. -/
  excluded : ∀ y ≠ x, ∀ ranges, Interval.Shrinks ranges y →
    ∀ᶠ n in atTop, admits (refine'^[n] operands) (ranges n) = false

/-- Operands whose image shrinks to a real select it. -/
theorem selects_overlaps {image : σ → Interval} {refine' : σ → σ} {operands : σ} {x : ℝ}
    (shrinks : Interval.Shrinks (fun n => image (refine'^[n] operands)) x) :
    Selects (fun s range => range.overlaps (image s)) refine' operands x where
  admitted n _ holds := holds.overlaps (shrinks.holds n)
  excluded _ different _ known := known.eventually_not_overlaps shrinks different

section Selection

variable {q : Poly} {admits : σ → Interval → Bool} {refine' : σ → σ} {operands : σ} {x : ℝ}

/-- One round of selection. -/
def selectionStep (q : Poly) (admits : σ → Interval → Bool) (refine' : σ → σ)
    (state : σ × List Interval) : σ × List Interval :=
  (refine' state.1, (state.2.filter (admits state.1)).map q.bisect)

/-- The operands admit one candidate. -/
def Decided (admits : σ → Interval → Bool) (state : σ × List Interval) : Prop :=
  (state.2.filter (admits state.1)).length = 1

/-- After some rounds the candidates are what those of some of the roots have become. -/
theorem exists_selectionStep_iterate (selects : Selects admits refine' operands x)
    (separable : q.toPolynomial.Separable) {roots : List ℝ} {place : ℝ → Interval}
    (located : ∀ y ∈ roots, (place y).Locates q y) (member : x ∈ roots) (n : ℕ) :
    ∃ kept : List ℝ, kept.Sublist roots ∧ x ∈ kept ∧
      (selectionStep q admits refine')^[n] (operands, roots.map place) =
        (refine'^[n] operands, kept.map fun y => q.bisect^[n] (place y)) := by
  induction n with
  | zero => exact ⟨roots, List.Sublist.refl _, member, rfl⟩
  | succ n ih =>
    obtain ⟨kept, part, inside, same⟩ := ih
    refine ⟨kept.filter fun y => admits (refine'^[n] operands) (q.bisect^[n] (place y)),
      List.filter_sublist.trans part, List.mem_filter.mpr ⟨inside, ?_⟩, ?_⟩
    · exact selects.admitted n _
        (Poly.locates_iterate_bisect separable (located x member) n).holds
    · rw [Function.iterate_succ_apply', same, selectionStep, List.filter_map, List.map_map,
        ← Function.iterate_succ_apply' refine']
      simp only [Function.comp_def, ← Function.iterate_succ_apply']

/-- The rounds of selection. The invariant is that a candidate locates the root. -/
theorem loop_selectFrom (selects : Selects admits refine' operands x)
    (separable : q.toPolynomial.Separable) :
    Loop (fun rounds state => selectFrom q admits refine' rounds state.1 state.2)
      (fun state => (∃ n, state.1 = refine'^[n] operands) ∧ ∃ range ∈ state.2, range.Locates q x)
      (Decided admits) (selectionStep q admits refine') := by
  have kept (state : σ × List Interval) (refined : ∃ n, state.1 = refine'^[n] operands)
      {range : Interval} (member : range ∈ state.2) (known : range.Locates q x) :
      range ∈ state.2.filter (admits state.1) := by
    obtain ⟨n, same⟩ := refined
    refine List.mem_filter.mpr ⟨member, ?_⟩
    rw [same]
    exact selects.admitted n range known.holds
  refine ⟨fun _ => rfl, fun rounds state _ single => ?_, fun rounds state good several => ?_,
    fun state good => ?_⟩
  · obtain ⟨range, single⟩ := List.length_eq_one_iff.mp single
    exact ⟨numeralOf q range, by rw [selectFrom, single]⟩
  · obtain ⟨refined, range, member, known⟩ := good
    have inside := kept state refined member known
    refine ⟨fun t => { t with refinements := t.refinements + 1 }, ?_⟩
    rw [selectFrom, selectionStep]
    split
    · next none =>
      rw [none] at inside
      cases inside
    · next single =>
      rw [Decided, single] at several
      exact absurd rfl several
    · rfl
  · obtain ⟨⟨n, same⟩, range, member, known⟩ := good
    refine ⟨⟨n + 1, ?_⟩, q.bisect range, ?_, Poly.locates_bisect separable known⟩
    · rw [selectionStep, same, Function.iterate_succ_apply']
    · exact List.mem_map_of_mem (kept state ⟨n, same⟩ member known)

/-- In the end one candidate is left. -/
theorem exists_decided (selects : Selects admits refine' operands x)
    (separable : q.toPolynomial.Separable) {roots : List ℝ} {place : ℝ → Interval}
    (located : ∀ y ∈ roots, (place y).Locates q y) (distinct : roots.Nodup) (member : x ∈ roots) :
    ∃ n, Decided admits ((selectionStep q admits refine')^[n] (operands, roots.map place)) := by
  -- the other roots are finitely many, so that one round is late enough for all of them
  have others : ∀ᶠ n in atTop, ∀ y ∈ roots.toFinset, y ≠ x →
      admits (refine'^[n] operands) (q.bisect^[n] (place y)) = false := by
    refine (Filter.eventually_all_finset _).mpr fun y inside => ?_
    by_cases same : y = x
    · exact Eventually.of_forall fun n different => absurd same different
    · have shrinks := Poly.shrinks_iterate_bisect separable
        (located y (List.mem_toFinset.mp inside))
      exact (selects.excluded y same _ shrinks).mono fun n apart _ => apart
  obtain ⟨n, others⟩ := others.exists
  obtain ⟨kept, part, inside, same⟩ :=
    exists_selectionStep_iterate selects separable located member n
  refine ⟨n, ?_⟩
  have only : kept.filter (fun y => admits (refine'^[n] operands) (q.bisect^[n] (place y))) =
      kept.filter (· = x) := by
    refine List.filter_congr fun y there => ?_
    by_cases equal : y = x
    · rw [equal, decide_eq_true rfl]
      exact selects.admitted n _ (Poly.locates_iterate_bisect separable (located x member) n).holds
    · rw [others y (List.mem_toFinset.mpr (part.subset there)) equal, decide_eq_false equal]
  rw [same, Decided, List.filter_map, List.length_map, Function.comp_def, only,
    ← List.countP_eq_length_filter]
  exact List.count_eq_one_of_mem (part.nodup distinct) inside

/-- **Selection settles**: it refuses for lack of rounds only, and with enough rounds returns, under
limits that allow the degree of the polynomial. -/
theorem settles_selectRoot (nonzero : q.toPolynomial ≠ 0) (root : q.toReal.eval x = 0)
    (selects : Selects admits refine' operands x) {degree : ℕ} (small : q.degree ≤ degree) :
    (selectRoot q admits refine' operands).Settles degree := by
  have simple : q.squareFree.primitive.toReal.eval x = 0 := by
    rw [Poly.eval_primitive_eq_zero_iff (Poly.squareFree_ne_zero nonzero),
      Poly.eval_squareFree_eq_zero_iff nonzero]
    exact root
  have separable := Poly.separable_primitive (Poly.separable_squareFree nonzero)
  refine settles_checkDegree_bind ?_ (settles_count_bind ?_)
  · rw [Poly.degree_primitive (Poly.squareFree_ne_zero nonzero)]
    exact (Poly.degree_squareFree_le nonzero).trans small
  obtain ⟨roots, each, increasing, exact⟩ := Poly.locating_isolateRoots separable
  have distinct : roots.Nodup := increasing.imp fun less => less.ne
  obtain ⟨place, same, located⟩ := exists_map_of_forall₂ each distinct
  have member : x ∈ roots :=
    (exact x).mpr ⟨simple, abs_lt.mp (Poly.abs_lt_rootBound separable.ne_zero simple)⟩
  have single := exists_decided selects separable located distinct member
  rw [same]
  exact (loop_selectFrom selects separable).settles
    ⟨⟨0, rfl⟩, place x, List.mem_map_of_mem member, located x member⟩ single

end Selection

end Algebraic

/-! ### Comparison -/

namespace Numeral

open Algebraic Algebraic.Compute

variable {a b : Numeral} {x y : Algebraic} {v w : ℝ} {degree : ℕ}

theorem loop_compareRationalFrom (r : ℚ) :
    Loop (compareRationalFrom r) (fun _ => True)
      (fun x => r < x.interval.lo ∨ x.interval.hi < r) Algebraic.refine where
  zero _ := rfl
  stop rounds x _ stopped := by
    rw [compareRationalFrom]
    by_cases below : r < x.interval.lo
    · exact ⟨.gt, if_pos below⟩
    · exact ⟨.lt, by rw [if_neg below, if_pos (stopped.resolve_left below)]⟩
  step rounds x _ going := by
    rw [not_or] at going
    refine ⟨id, ?_⟩
    rw [compareRationalFrom, if_neg going.1, if_neg going.2]
    rfl
  keeps _ _ := trivial

/-- The comparison with a rational settles. -/
theorem settles_compareRational (known : x.Represents v) (r : ℚ) :
    (compareRational x r).Settles degree := by
  refine (loop_compareRationalFrom r).settles trivial ?_
  have different : (r : ℝ) ≠ v := (known.irrational.ne_rat r).symm
  obtain ⟨n, outside⟩ := (known.shrinks.eventually_not_holds different).exists
  refine ⟨n, ?_⟩
  rw [Interval.Holds, not_and_or, not_le, not_le] at outside
  exact_mod_cast outside

theorem loop_compareFrom (shared : Bool) (sequence : List Poly) :
    Loop (fun rounds (both : Algebraic × Algebraic) =>
        compareFrom shared sequence rounds both.1 both.2)
      (fun _ => True)
      (fun both => both.1.interval.hi < both.2.interval.lo ∨
        both.2.interval.hi < both.1.interval.lo ∨
        (shared && Poly.countRoots sequence (both.1.interval.hull both.2.interval).lo
          (both.1.interval.hull both.2.interval).hi == 1) = true)
      (Prod.map Algebraic.refine Algebraic.refine) where
  zero _ := rfl
  stop rounds both _ stopped := by
    rw [compareFrom]
    by_cases below : both.1.interval.hi < both.2.interval.lo
    · exact ⟨.lt, if_pos below⟩
    by_cases above : both.2.interval.hi < both.1.interval.lo
    · exact ⟨.gt, by rw [if_neg below, if_pos above]⟩
    · have met := (stopped.resolve_left below).resolve_left above
      exact ⟨.eq, by rw [if_neg below, if_neg above, if_pos met]⟩
  step rounds both _ going := by
    rw [not_or, not_or] at going
    refine ⟨id, ?_⟩
    rw [compareFrom, if_neg going.1, if_neg going.2.1, if_neg going.2.2]
    rfl
  keeps _ _ := trivial

/-- A root of a polynomial is in the end its only root in the interval around two intervals that
shrink to the root. -/
theorem eventually_countRoots_hull {g : Poly} (separable : g.toPolynomial.Separable)
    (root : g.toReal.eval v = 0) {first second : ℕ → Interval} (left : Interval.Shrinks first v)
    (right : Interval.Shrinks second v)
    (proper : ∀ n, ((first n).lo : ℝ) < v ∧ v < (first n).hi) :
    ∀ᶠ n in atTop, Poly.countRoots g.sturm ((first n).hull (second n)).lo
      ((first n).hull (second n)).hi = 1 := by
  have others : ∀ᶠ n in atTop, ∀ z ∈ g.realRoots, z ≠ v →
      ¬((first n).hull (second n)).Holds z := by
    refine (Filter.eventually_all_finset _).mpr fun z _ => ?_
    by_cases same : z = v
    · exact Eventually.of_forall fun n different => absurd same different
    · exact ((left.hull right).eventually_not_holds same).mono fun n outside _ => outside
  filter_upwards [others] with n others
  have hull := Interval.hull_eq (first n) (second n)
  refine Poly.countRoots_of_isolates separable (x := v) ⟨root, ?_, ?_, fun z other low high => ?_⟩
  · rw [hull]
    exact (Rat.cast_le.mpr (min_le_left _ _)).trans_lt (proper n).1
  · rw [hull]
    exact (proper n).2.trans_le (Rat.cast_le.mpr (le_max_left _ _))
  · by_contra different
    exact others z ((Poly.mem_realRoots separable.ne_zero).mpr other) different ⟨low, high⟩

/-- Equal numbers are found to be roots of the greatest common divisor of their polynomials. -/
theorem shared_of_eq (first : x.Represents v) (second : y.Represents v) :
    let g := x.poly.gcd y.poly
    (!g.isConstant && Poly.countRoots g.sturm x.interval.lo x.interval.hi == 1 &&
      Poly.countRoots g.sturm y.interval.lo y.interval.hi == 1) = true := by
  intro g
  have separable : g.toPolynomial.Separable :=
    first.separable.of_dvd (Poly.gcd_dvd_left _ _)
  have root := Poly.eval_gcd_eq_zero first.isolates.root second.isolates.root
  have varies := Poly.degree_ne_zero_of_root separable.ne_zero root
  rw [Bool.and_eq_true, Bool.and_eq_true, Bool.not_eq_true', Bool.eq_false_iff, ne_eq,
    Poly.isConstant_iff, Poly.natDegree_toPolynomial, beq_iff_eq, beq_iff_eq]
  exact ⟨⟨varies, Poly.countRoots_of_isolates separable
      (first.isolates.of_dvd (Poly.gcd_dvd_left _ _) root)⟩,
    Poly.countRoots_of_isolates separable
      (second.isolates.of_dvd (Poly.gcd_dvd_right _ _) root)⟩

/-- The comparison of two irrational numbers settles: different ones are apart in the end, and equal
ones are in the end the only root of the common divisor around both. -/
theorem settles_compareIrrational (first : x.Represents v) (second : y.Represents w) :
    (compareIrrational x y).Settles degree := by
  rw [compareIrrational]
  split
  · exact settles_pure _
  refine settles_count_bind ((loop_compareFrom _ _).settles (s := (x, y)) trivial ?_)
  simp only [Prod.map_iterate, Prod.map_apply]
  rcases eq_or_ne v w with rfl | different
  · have separable := first.separable.of_dvd (Poly.gcd_dvd_left _ y.poly)
    have root := Poly.eval_gcd_eq_zero first.isolates.root second.isolates.root
    have proper (n : ℕ) := (first.iterate_refine n).isolates
    obtain ⟨n, single⟩ := (eventually_countRoots_hull separable root first.shrinks second.shrinks
      fun n => ⟨(proper n).lo_lt, (proper n).lt_hi⟩).exists
    refine ⟨n, .inr (.inr ?_)⟩
    rw [Bool.and_eq_true, beq_iff_eq]
    exact ⟨shared_of_eq first second, single⟩
  · obtain ⟨n, apart⟩ :=
      (first.shrinks.eventually_not_overlaps second.shrinks different).exists
    rw [Interval.overlaps, Bool.and_eq_false_iff, decide_eq_false_iff_not,
      decide_eq_false_iff_not, not_le, not_le] at apart
    exact ⟨n, apart.elim (fun above => .inr (.inl above)) .inl⟩

/-- **Comparison settles.** -/
theorem settles_compare (first : a.Represents v) (second : b.Represents w) :
    (a.compare b).Settles degree := by
  cases a with
  | rational r =>
    cases b with
    | rational s => exact settles_pure _
    | irrational y => exact settles_bind_pure (settles_compareRational second r) Ordering.swap
  | irrational x =>
    cases b with
    | rational s => exact settles_compareRational first s
    | irrational y => exact settles_compareIrrational first second

/-! ### The integral part -/

theorem loop_floorFrom :
    Loop floorFrom (fun _ => True) (fun x => x.interval.lo.floor = x.interval.hi.floor)
      Algebraic.refine where
  zero _ := rfl
  stop _ x _ stopped := ⟨x.interval.lo.floor, if_pos stopped⟩
  step _ _ _ going := ⟨id, if_neg going⟩
  keeps _ _ := trivial

/-- **The integral part settles**: no integer is an irrational number, so in the end both ends of
the interval have the integral part of the number. -/
theorem settles_floor (known : a.Represents v) : a.floor.Settles degree := by
  cases a with
  | rational r => exact settles_pure _
  | irrational x =>
    refine loop_floorFrom.settles trivial ?_
    have represents : x.Represents v := known
    have below : (⌊v⌋ : ℝ) < v :=
      lt_of_le_of_ne (Int.floor_le v) (represents.irrational.ne_int ⌊v⌋).symm
    obtain ⟨n, low, high⟩ := ((represents.shrinks.lo.eventually_const_lt below).and
      (represents.shrinks.hi.eventually_lt_const (Int.lt_floor_add_one v))).exists
    obtain ⟨lower, upper⟩ := represents.shrinks.holds n
    refine ⟨n, ?_⟩
    have first : ⌊(Algebraic.refine^[n] x).interval.lo⌋ = ⌊v⌋ :=
      Int.floor_eq_iff.mpr ⟨by exact_mod_cast low.le,
        by exact_mod_cast lower.trans_lt (Int.lt_floor_add_one v)⟩
    have last : ⌊(Algebraic.refine^[n] x).interval.hi⌋ = ⌊v⌋ :=
      Int.floor_eq_iff.mpr ⟨by exact_mod_cast (below.trans_le upper).le, by exact_mod_cast high⟩
    exact first.trans last.symm

end Numeral
end Stratagem
