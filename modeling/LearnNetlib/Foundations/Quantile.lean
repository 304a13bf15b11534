import Mathlib.Algebra.Order.BigOperators.Group.List
import Mathlib.Algebra.Order.Field.Basic
import Mathlib.Tactic.FieldSimp
import Mathlib.Tactic.Linarith

/-!
# Quantiles by linear interpolation

A distribution is a list of segments, each with a weight that is spread over the segment's range. The
quantile of a threshold is found by walking to the segment where the weights add up to it.

* `quantile` — the walk;
* `Rising` — weights are positive, and the ranges follow one another;
* **`quantile_mem`** — a threshold up to the whole weight has a quantile, inside one of the segments;
* **`quantile_mono`** — quantiles do not fall;
* `quantile_zero`, `quantile_total` — the first and the last.
-/

namespace LearnNetlib

/-- A weight, and where it begins and ends. -/
structure Segment (𝕜 : Type*) where
  weight : 𝕜
  lo : 𝕜
  hi : 𝕜

namespace Segment

variable {𝕜 : Type*} [Field 𝕜] [LinearOrder 𝕜] [IsStrictOrderedRing 𝕜]

/-- How far the weight goes in the segment. -/
def reach (s : Segment 𝕜) (threshold : 𝕜) : 𝕜 := s.lo + threshold / s.weight * (s.hi - s.lo)

/-- The quantile of a threshold. -/
def quantile : List (Segment 𝕜) → 𝕜 → Option 𝕜
  | [], _ => none
  | s :: l, threshold =>
    if threshold ≤ s.weight then some (s.reach threshold) else quantile l (threshold - s.weight)

/-- The whole weight. -/
def total (l : List (Segment 𝕜)) : 𝕜 := (l.map weight).sum

/-- Each segment ends before the next one begins. -/
structure Rising (l : List (Segment 𝕜)) : Prop where
  weight : ∀ s ∈ l, 0 < s.weight
  inner : ∀ s ∈ l, s.lo ≤ s.hi
  outer : l.Pairwise fun s s' => s.hi ≤ s'.lo

variable {s : Segment 𝕜} {l : List (Segment 𝕜)} {x y q q' : 𝕜}

omit [LinearOrder 𝕜] [IsStrictOrderedRing 𝕜] in
theorem total_cons : total (s :: l) = s.weight + total l := by
  rw [total, List.map_cons, List.sum_cons, total]

theorem total_nonneg (hl : ∀ s ∈ l, 0 < s.weight) : 0 ≤ total l := by
  refine List.sum_nonneg fun w hw => ?_
  obtain ⟨s, hs, rfl⟩ := List.mem_map.mp hw
  exact (hl s hs).le

omit [IsStrictOrderedRing 𝕜] in
theorem Rising.tail (h : Rising (s :: l)) : Rising l :=
  ⟨fun s' hs' => h.weight s' (List.mem_cons_of_mem _ hs'),
    fun s' hs' => h.inner s' (List.mem_cons_of_mem _ hs'), h.outer.tail⟩

theorem reach_mono (hs : 0 < s.weight) (hs' : s.lo ≤ s.hi) (hxy : x ≤ y) : s.reach x ≤ s.reach y := by
  have hdiv : x / s.weight ≤ y / s.weight := div_le_div_of_nonneg_right hxy hs.le
  have hmul := mul_le_mul_of_nonneg_right hdiv (sub_nonneg.mpr hs')
  rw [reach, reach]
  linarith

omit [LinearOrder 𝕜] [IsStrictOrderedRing 𝕜] in
theorem reach_zero : s.reach 0 = s.lo := by
  rw [reach, zero_div, zero_mul, add_zero]

omit [IsStrictOrderedRing 𝕜] in
theorem reach_weight (hs : 0 < s.weight) : s.reach s.weight = s.hi := by
  rw [reach, div_self hs.ne', one_mul, add_sub_cancel]

/-- Within its weight a segment reaches no further than its ends. -/
theorem reach_mem (hs : 0 < s.weight) (hs' : s.lo ≤ s.hi) (hx : 0 ≤ x) (hx' : x ≤ s.weight) :
    s.lo ≤ s.reach x ∧ s.reach x ≤ s.hi := by
  constructor
  · rw [← @reach_zero _ _ s]
    exact reach_mono hs hs' hx
  · rw [← reach_weight hs]
    exact reach_mono hs hs' hx'

/-- **Every threshold has a quantile**, in one of the segments. -/
theorem quantile_mem (hl : Rising l) (hne : l ≠ []) (hx : 0 ≤ x) (hx' : x ≤ total l) :
    ∃ q, quantile l x = some q ∧ ∃ s ∈ l, s.lo ≤ q ∧ q ≤ s.hi := by
  induction l generalizing x with
  | nil => exact absurd rfl hne
  | cons s l ih =>
    rw [total_cons] at hx'
    rw [quantile]
    have hs := hl.weight s List.mem_cons_self
    by_cases hhere : x ≤ s.weight
    · exact ⟨_, if_pos hhere, s, List.mem_cons_self,
        reach_mem hs (hl.inner s List.mem_cons_self) hx hhere⟩
    · have hne' : l ≠ [] := by
        rintro rfl
        rw [total, List.map_nil, List.sum_nil, add_zero] at hx'
        exact hhere hx'
      obtain ⟨q, hq, s', hs', hmem⟩ := @ih (x - s.weight) hl.tail hne' (by linarith) (by linarith)
      exact ⟨q, by rw [if_neg hhere, hq], s', List.mem_cons_of_mem _ hs', hmem⟩

/-- **Quantiles do not fall** as the threshold rises. -/
theorem quantile_mono (hl : Rising l) (hx : 0 ≤ x) (hxy : x ≤ y) (hy : y ≤ total l)
    (hq : quantile l x = some q) (hq' : quantile l y = some q') : q ≤ q' := by
  induction l generalizing x y with
  | nil => cases hq
  | cons s l ih =>
    rw [total_cons] at hy
    rw [quantile] at hq hq'
    have hs := hl.weight s List.mem_cons_self
    have hs' := hl.inner s List.mem_cons_self
    by_cases hyhere : y ≤ s.weight
    · rw [if_pos (hxy.trans hyhere)] at hq
      rw [if_pos hyhere] at hq'
      rw [← Option.some.inj hq, ← Option.some.inj hq']
      exact reach_mono hs hs' hxy
    · rw [if_neg hyhere] at hq'
      by_cases hxhere : x ≤ s.weight
      · -- the lower one ends in this segment, the higher one in a later segment
        rw [if_pos hxhere] at hq
        have hne : l ≠ [] := by
          rintro rfl
          cases hq'
        have hpast : 0 ≤ y - s.weight := by linarith
        have hrest : y - s.weight ≤ total l := by linarith
        obtain ⟨p, hp, s', hmem, hlo, -⟩ := quantile_mem hl.tail hne hpast hrest
        rw [← Option.some.inj hq, ← Option.some.inj (hp.symm.trans hq')]
        calc s.reach x
          _ ≤ s.hi := (reach_mem hs hs' hx hxhere).2
          _ ≤ s'.lo := List.rel_of_pairwise_cons hl.outer hmem
          _ ≤ p := hlo
      · rw [if_neg hxhere] at hq
        exact @ih (x - s.weight) (y - s.weight) hl.tail (by linarith) (by linarith) (by linarith) hq hq'

omit [IsStrictOrderedRing 𝕜] in
theorem quantile_zero (hs : 0 < s.weight) : quantile (s :: l) 0 = some s.lo := by
  rw [quantile, if_pos hs.le, reach_zero]

/-- The quantile of the whole weight is where the last segment ends. -/
theorem quantile_total (hl : ∀ s' ∈ l, 0 < s'.weight) (hs : 0 < s.weight) :
    quantile (l ++ [s]) (total (l ++ [s])) = some s.hi := by
  induction l with
  | nil =>
    rw [List.nil_append, total_cons, total, List.map_nil, List.sum_nil, add_zero, quantile, if_pos le_rfl,
      reach_weight hs]
  | cons s' l ih =>
    obtain ⟨hs', hl⟩ := List.forall_mem_cons.mp hl
    have hpos : 0 < total (l ++ [s]) := by
      rw [total, List.map_append, List.sum_append, List.map_singleton, List.sum_singleton]
      have := total_nonneg hl
      rw [total] at this
      linarith
    rw [List.cons_append, total_cons, quantile, if_neg (by linarith), add_sub_cancel_left]
    exact ih hl

end Segment

end LearnNetlib
