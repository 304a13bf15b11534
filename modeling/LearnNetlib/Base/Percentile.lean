import LearnNetlib.Base.Histogram
import LearnNetlib.Foundations.Quantile
import Mathlib.Order.Bounds.Defs

/-!
# `Histogram::Percentile`

In exact arithmetic.

* `segments` — the buckets that are not empty, with the ends that `Percentile` gives them;
* **`percentileLoop_eq`** — the loop is the walk over the segments;
* `Filled`, `segments_rising` — the ends follow one another if each bucket has a value in it;
  `last_segment` — where they end;
* **`percentile_ordered_iff`** — percentiles rise from the least value to the greatest, exactly if an `int`
  can number the buckets of all values.
-/

namespace LearnNetlib.Histogram

open Segment

/-! ### What it is for -/

/-- Percentiles rise from the least value to the greatest. -/
structure Ordered (h : Histogram) (least greatest : ℚ) : Prop where
  zero : h.percentile 0 = .ok least
  hundred : h.percentile 100 = .ok greatest
  between : ∀ p, 0 ≤ p → p ≤ 100 → ∃ q, h.percentile p = .ok q ∧ least ≤ q ∧ q ≤ greatest
  rises : ∀ p p', 0 ≤ p → p ≤ p' → p' ≤ 100 →
    ∃ q q', h.percentile p = .ok q ∧ h.percentile p' = .ok q' ∧ q ≤ q'

/-! ### The loop is a walk -/

section Walk

variable (h : Histogram)

/-- The lower bound of interpolation. -/
def lhs (i : ℕ) (cumsumPrev : ℚ) : ℚ :=
  max (if i = 0 ∨ cumsumPrev = 0 then h.min_ else h.bucketLimits.getD (i - 1) 0) h.min_

/-- The upper bound of interpolation. -/
def rhs (i : ℕ) : ℚ := min (h.bucketLimits.getD i 0) h.max_

/-- What `Percentile` makes of the buckets from number `i` on. -/
def segments : ℕ → ℚ → List ℕ → List (Segment ℚ)
  | _, _, [] => []
  | i, cumsumPrev, bucket :: buckets =>
    if bucket = 0 then segments (i + 1) cumsumPrev buckets
    else ⟨bucket, h.lhs i cumsumPrev, h.rhs i⟩ :: segments (i + 1) (cumsumPrev + bucket) buckets

theorem segments_zero (i : ℕ) (prev : ℚ) (buckets : List ℕ) :
    h.segments i prev (0 :: buckets) = h.segments (i + 1) prev buckets := if_pos rfl

variable {h}

theorem segments_pos {i bucket : ℕ} {prev : ℚ} {buckets : List ℕ} (hpos : 0 < bucket) :
    h.segments i prev (bucket :: buckets) =
      ⟨bucket, h.lhs i prev, h.rhs i⟩ :: h.segments (i + 1) (prev + bucket) buckets :=
  if_neg hpos.ne'

/-- **The loop walks** over the segments; it never divides by zero. -/
theorem percentileLoop_eq {threshold : ℚ} (i : ℕ) (prev : ℚ) (buckets : List ℕ) :
    percentileLoop h threshold i prev buckets =
      .ok ((quantile (h.segments i prev buckets) (threshold - prev)).getD h.max_) := by
  induction buckets generalizing i prev with
  | nil => rfl
  | cons bucket buckets ih =>
    rw [percentileLoop]
    rcases Nat.eq_zero_or_pos bucket with rfl | hpos
    · simp only [Nat.cast_zero, add_zero, if_pos, ite_self]
      rw [ih, segments_zero]
    · have hne : (bucket : ℚ) ≠ 0 := by positivity
      have hsub : prev + (bucket : ℚ) - prev = bucket := add_sub_cancel_left _ _
      rw [segments_pos hpos, quantile]
      dsimp only
      by_cases hhere : prev + bucket ≥ threshold
      · have hwithin : threshold - prev ≤ bucket := by linarith
        have hmoves : ¬ prev + (bucket : ℚ) = prev := by simpa using hpos.ne'
        rw [if_pos hhere, if_neg hmoves, remap, hsub, if_neg hne, if_pos hwithin, Option.getD_some]
        rfl
      · have hbeyond : ¬ threshold - prev ≤ bucket := by linarith
        rw [if_neg hhere, if_neg hbeyond, ih, sub_sub]

theorem total_segments (i : ℕ) (prev : ℚ) (buckets : List ℕ) :
    total (h.segments i prev buckets) = (buckets.sum : ℚ) := by
  induction buckets generalizing i prev with
  | nil => rfl
  | cons bucket buckets ih =>
    rcases Nat.eq_zero_or_pos bucket with rfl | hpos
    · rw [segments_zero, ih, List.sum_cons, zero_add]
    · rw [segments_pos hpos, total_cons, ih, List.sum_cons, Nat.cast_add]

theorem weight_segments (i : ℕ) (prev : ℚ) (buckets : List ℕ) :
    ∀ s ∈ h.segments i prev buckets, 0 < s.weight := by
  induction buckets generalizing i prev with
  | nil => simp [segments]
  | cons bucket buckets ih =>
    rcases Nat.eq_zero_or_pos bucket with rfl | hpos
    · rw [segments_zero]
      exact ih _ _
    · rw [segments_pos hpos, List.forall_mem_cons]
      exact ⟨Nat.cast_pos.mpr hpos, ih _ _⟩

/-- The first segment begins at the least value. -/
theorem first_segment {i : ℕ} {buckets : List ℕ} {s : Segment ℚ} {l : List (Segment ℚ)}
    (hsegments : h.segments i 0 buckets = s :: l) : s.lo = h.min_ := by
  induction buckets generalizing i with
  | nil => cases hsegments
  | cons bucket buckets ih =>
    rcases Nat.eq_zero_or_pos bucket with rfl | hpos
    · exact ih (segments_zero h i 0 buckets ▸ hsegments)
    · rw [segments_pos hpos] at hsegments
      obtain ⟨rfl, -⟩ := List.cons.inj hsegments
      simp [lhs]

/-- Without segments there is nothing in the buckets. -/
theorem eq_zero_of_segments_eq_nil {i : ℕ} {prev : ℚ} {buckets : List ℕ}
    (hsegments : h.segments i prev buckets = []) (j : ℕ) : buckets.getD j 0 = 0 := by
  have hsum := @total_segments h i prev buckets
  rw [hsegments, total, List.map_nil, List.sum_nil, eq_comm, Nat.cast_eq_zero, List.sum_eq_zero_iff] at hsum
  rw [List.getD_eq_getElem?_getD]
  cases hj : buckets[j]? with
  | none => rfl
  | some bucket => exact hsum bucket (List.mem_of_getElem? hj)

/-- The last segment belongs to the last bucket that is not empty. -/
theorem last_segment {i : ℕ} {prev : ℚ} {buckets : List ℕ} {s : Segment ℚ} {l : List (Segment ℚ)}
    (hsegments : h.segments i prev buckets = l ++ [s]) :
    ∃ k < buckets.length, 0 < buckets.getD k 0 ∧ (∀ j > k, buckets.getD j 0 = 0) ∧ s.hi = h.rhs (i + k) := by
  induction buckets generalizing i prev l with
  | nil => exact absurd hsegments.symm (by simp [segments])
  | cons bucket buckets ih =>
    -- a segment behind this bucket is the last one of the rest
    have hlater {i' : ℕ} {prev' : ℚ} {l' : List (Segment ℚ)}
        (hrest : h.segments i' prev' buckets = l' ++ [s]) (hi' : i' = i + 1) :
        ∃ k < (bucket :: buckets).length, 0 < (bucket :: buckets).getD k 0 ∧
          (∀ j > k, (bucket :: buckets).getD j 0 = 0) ∧ s.hi = h.rhs (i + k) := by
      obtain ⟨k, hk, hpos, hzero, hhi⟩ := ih hrest
      refine ⟨k + 1, Nat.succ_lt_succ hk, hpos, fun j hj => ?_, ?_⟩
      · obtain ⟨j, rfl⟩ : ∃ j', j = j' + 1 := ⟨j - 1, by omega⟩
        exact hzero j (by omega)
      · rw [hhi, hi', Nat.add_assoc, Nat.add_comm 1]
    rcases Nat.eq_zero_or_pos bucket with rfl | hpos
    · exact hlater (segments_zero h i prev buckets ▸ hsegments) rfl
    · rw [segments_pos hpos] at hsegments
      cases l with
      | nil =>
        obtain ⟨rfl, hrest⟩ := List.cons.inj hsegments
        refine ⟨0, Nat.succ_pos _, hpos, fun j hj => ?_, rfl⟩
        obtain ⟨j, rfl⟩ : ∃ j', j = j' + 1 := ⟨j - 1, by omega⟩
        exact eq_zero_of_segments_eq_nil hrest j
      | cons a l => exact hlater (List.cons.inj hsegments).2 rfl

end Walk

/-! ### The segments rise -/

/-- Each bucket that is not empty has a value in it. -/
structure Filled (h : Histogram) : Prop where
  increasing : h.bucketLimits.Pairwise (· < ·)
  length : h.buckets.length = h.bucketLimits.length
  value : ∀ i, 0 < h.buckets.getD i 0 → ∃ v, InBucket h.bucketLimits i v ∧ h.min_ ≤ v ∧ v ≤ h.max_

section Rising

variable {h : Histogram} (hf : Filled h)

include hf

theorem Filled.limit_le {i : ℕ} (hi : i < h.buckets.length) :
    h.bucketLimits.getD (i - 1) 0 ≤ h.bucketLimits.getD i 0 := by
  rcases Nat.eq_zero_or_pos i with rfl | hpos
  · exact le_refl _
  · exact (getD_lt_getD hf.increasing (Nat.sub_lt hpos Nat.one_pos) (hf.length ▸ hi)).le

theorem Filled.lhs_le_rhs {i : ℕ} (hpos : 0 < h.buckets.getD i 0) (prev : ℚ) : h.lhs i prev ≤ h.rhs i := by
  obtain ⟨v, ⟨hlow, hhigh⟩, hmin, hmax⟩ := hf.value i hpos
  have hleft : h.lhs i prev ≤ v := by
    rw [lhs]
    refine max_le ?_ hmin
    split_ifs with hfirst
    · exact hmin
    · exact hlow.resolve_left fun hi => hfirst (.inl hi)
  exact hleft.trans (le_min hhigh.le hmax)

/-- Segments lie between the least and the greatest value, and behind what came before. -/
theorem Filled.segments_ends {i : ℕ} {prev : ℚ} {buckets : List ℕ} (hbuckets : h.buckets.drop i = buckets)
    (hprev : 0 ≤ prev) (hfirst : i = 0 → prev = 0) :
    ∀ s ∈ h.segments i prev buckets,
      h.min_ ≤ s.lo ∧ s.hi ≤ h.max_ ∧ (0 < prev → h.bucketLimits.getD (i - 1) 0 ≤ s.lo) := by
  induction buckets generalizing i prev with
  | nil => simp [segments]
  | cons bucket buckets ih =>
    have hlt : i < h.buckets.length := by
      by_contra hge
      rw [List.drop_eq_nil_of_le (not_lt.mp hge)] at hbuckets
      cases hbuckets
    have hrest : h.buckets.drop (i + 1) = buckets := by
      rw [← List.tail_drop, hbuckets, List.tail_cons]
    rcases Nat.eq_zero_or_pos bucket with rfl | hpos
    · rw [segments_zero]
      intro s hs
      obtain ⟨hlo, hhi, hbehind⟩ := ih hrest hprev (fun h0 => absurd h0 (Nat.succ_ne_zero i)) s hs
      exact ⟨hlo, hhi, fun hp => (hf.limit_le hlt).trans (hbehind hp)⟩
    · have hnext : 0 < prev + bucket := by positivity
      rw [segments_pos hpos, List.forall_mem_cons]
      refine ⟨⟨le_max_right _ _, min_le_right _ _, fun hp => ?_⟩, fun s hs => ?_⟩
      · have hnot : ¬ (i = 0 ∨ prev = 0) := by
          rintro (h0 | h0)
          · exact hp.ne' (hfirst h0)
          · exact hp.ne' h0
        rw [lhs, if_neg hnot]
        exact le_max_left _ _
      · obtain ⟨hlo, hhi, hbehind⟩ :=
          ih hrest hnext.le (fun h0 => absurd h0 (Nat.succ_ne_zero i)) s hs
        exact ⟨hlo, hhi, fun _ => (hf.limit_le hlt).trans (hbehind hnext)⟩

/-- **The segments rise.** -/
theorem Filled.segments_rising {i : ℕ} {prev : ℚ} {buckets : List ℕ} (hbuckets : h.buckets.drop i = buckets)
    (hprev : 0 ≤ prev) (hfirst : i = 0 → prev = 0) : Rising (h.segments i prev buckets) := by
  induction buckets generalizing i prev with
  | nil => exact ⟨by simp [segments], by simp [segments], List.Pairwise.nil⟩
  | cons bucket buckets ih =>
    have hrest : h.buckets.drop (i + 1) = buckets := by
      rw [← List.tail_drop, hbuckets, List.tail_cons]
    rcases Nat.eq_zero_or_pos bucket with rfl | hpos
    · rw [segments_zero]
      exact ih hrest hprev fun h0 => absurd h0 (Nat.succ_ne_zero i)
    · have hnext : 0 < prev + bucket := by positivity
      have hhere : h.buckets.getD i 0 = bucket := by
        rw [List.getD_eq_getElem?_getD, ← List.head?_drop, hbuckets]
        rfl
      have hlater := ih hrest hnext.le fun h0 => absurd h0 (Nat.succ_ne_zero i)
      rw [segments_pos hpos]
      refine ⟨List.forall_mem_cons.mpr ⟨Nat.cast_pos.mpr hpos, hlater.weight⟩,
        List.forall_mem_cons.mpr ⟨hf.lhs_le_rhs (hhere ▸ hpos) prev, hlater.inner⟩,
        List.pairwise_cons.mpr ⟨fun s hs => ?_, hlater.outer⟩⟩
      -- whatever comes behind this bucket begins at its limit
      have hends := hf.segments_ends hrest hnext.le (fun h0 => absurd h0 (Nat.succ_ne_zero i)) s hs
      exact (min_le_left _ _).trans (hends.2.2 hnext)

end Rising

/-! ### Percentiles -/

section Percentiles

variable {h : Histogram} (hnum : h.num = h.buckets.sum) (hpos : 0 < h.num)

include hpos

theorem percentile_eq (p : ℚ) : h.percentile p =
    .ok ((quantile (h.segments 0 0 h.buckets) (h.num * (p / 100))).getD h.max_) := by
  rw [percentile, if_neg hpos.ne', percentileLoop_eq, sub_zero]

include hnum

theorem segments_ne_nil : h.segments 0 0 h.buckets ≠ [] := by
  intro hnil
  have hsum := @total_segments h 0 0 h.buckets
  rw [hnil, total, List.map_nil, List.sum_nil, ← hnum, eq_comm, Nat.cast_eq_zero] at hsum
  exact hpos.ne' hsum

theorem percentile_zero : h.percentile 0 = .ok h.min_ := by
  rw [percentile_eq hpos, zero_div, mul_zero]
  cases hsegments : h.segments 0 0 h.buckets with
  | nil => exact absurd hsegments (segments_ne_nil hnum hpos)
  | cons s l =>
    have hs := weight_segments 0 0 h.buckets s (hsegments ▸ List.mem_cons_self)
    rw [quantile_zero hs, Option.getD_some, first_segment hsegments]

/-- The last percentile is the upper bound in the last bucket that is not empty. -/
theorem percentile_hundred : ∃ k < h.buckets.length, 0 < h.buckets.getD k 0 ∧
    (∀ j > k, h.buckets.getD j 0 = 0) ∧ h.percentile 100 = .ok (h.rhs k) := by
  obtain ⟨l, s, hsegments⟩ : ∃ l s, h.segments 0 0 h.buckets = l ++ [s] :=
    ⟨_, _, (List.dropLast_concat_getLast (segments_ne_nil hnum hpos)).symm⟩
  obtain ⟨k, hk, hlast, hlater, hhi⟩ := last_segment hsegments
  have hweight := @weight_segments h 0 0 h.buckets
  have htotal := @total_segments h 0 0 h.buckets
  rw [hsegments, List.forall_mem_append, List.forall_mem_singleton] at hweight
  rw [hsegments, ← hnum] at htotal
  refine ⟨k, hk, hlast, hlater, ?_⟩
  rw [percentile_eq hpos, div_self (by norm_num), mul_one, hsegments, ← htotal,
    quantile_total hweight.1 hweight.2, Option.getD_some, hhi, Nat.zero_add]

variable (hf : Filled h)

include hf

/-- A percentile up to 100 is a quantile. -/
theorem percentile_mem {p : ℚ} (hp : 0 ≤ p) (hp' : p ≤ 100) :
    ∃ q, h.percentile p = .ok q ∧ quantile (h.segments 0 0 h.buckets) (h.num * (p / 100)) = some q ∧
      h.min_ ≤ q ∧ q ≤ h.max_ := by
  have hrising : Rising (h.segments 0 0 h.buckets) := hf.segments_rising rfl le_rfl fun _ => rfl
  have hends := hf.segments_ends (show h.buckets.drop 0 = h.buckets from rfl) le_rfl fun _ => rfl
  have hthreshold : (h.num : ℚ) * (p / 100) ≤ total (h.segments 0 0 h.buckets) := by
    rw [total_segments, ← hnum]
    exact mul_le_of_le_one_right (Nat.cast_nonneg _) (by linarith)
  obtain ⟨q, hq, s, hs, hlo, hhi⟩ :=
    quantile_mem hrising (segments_ne_nil hnum hpos) (by positivity) hthreshold
  refine ⟨q, by rw [percentile_eq hpos, hq, Option.getD_some], hq, ?_, ?_⟩
  · exact (hends s hs).1.trans hlo
  · exact hhi.trans (hends s hs).2.1

/-- **Percentiles do not fall.** -/
theorem percentile_rises {p p' : ℚ} (hp : 0 ≤ p) (hpp' : p ≤ p') (hp' : p' ≤ 100) :
    ∃ q q', h.percentile p = .ok q ∧ h.percentile p' = .ok q' ∧ q ≤ q' := by
  obtain ⟨q, hq, hwalk, -, -⟩ := percentile_mem hnum hpos hf hp (hpp'.trans hp')
  obtain ⟨q', hq', hwalk', -, -⟩ := percentile_mem hnum hpos hf (hp.trans hpp') hp'
  have hrising : Rising (h.segments 0 0 h.buckets) := hf.segments_rising rfl le_rfl fun _ => rfl
  refine ⟨q, q', hq, hq', quantile_mono hrising (by positivity) ?_ ?_ hwalk hwalk'⟩
  · exact mul_le_mul_of_nonneg_left (by linarith) (Nat.cast_nonneg _)
  · rw [total_segments, ← hnum]
    exact mul_le_of_le_one_right (Nat.cast_nonneg _) (by linarith)

end Percentiles

/-! ### Values -/

section Extremes

variable {α : Type*} [LinearOrder α] {a m : α} {l : List α}

theorem foldl_min_le (l : List α) (a : α) : l.foldl min a ≤ a ∧ ∀ v ∈ l, l.foldl min a ≤ v := by
  induction l generalizing a with
  | nil => exact ⟨le_rfl, by simp⟩
  | cons b l ih =>
    obtain ⟨hfirst, hrest⟩ := ih (min a b)
    exact ⟨hfirst.trans (min_le_left a b),
      List.forall_mem_cons.mpr ⟨hfirst.trans (min_le_right a b), hrest⟩⟩

theorem le_foldl_min (ha : m ≤ a) (hl : ∀ v ∈ l, m ≤ v) : m ≤ l.foldl min a := by
  induction l generalizing a with
  | nil => exact ha
  | cons b l ih =>
    rw [List.forall_mem_cons] at hl
    exact ih (le_min ha hl.1) hl.2

/-- The running minimum is the least value, if it does not start below it. -/
theorem foldl_min_eq (hm : IsLeast {v | v ∈ l} m) (ha : m ≤ a) : l.foldl min a = m :=
  le_antisymm ((foldl_min_le l a).2 m hm.1) (le_foldl_min ha fun _ hv => hm.2 hv)

/-- The running maximum is the greatest value, if it does not start above it. -/
theorem foldl_max_eq (hm : IsGreatest {v | v ∈ l} m) (ha : a ≤ m) : l.foldl max a = m :=
  @foldl_min_eq αᵒᵈ _ a m l hm ha

end Extremes

theorem upperBound_mono {limits : List ℚ} {v w : ℚ} (hvw : v ≤ w) : upperBound limits v ≤ upperBound limits w := by
  by_contra hlt
  have hlt' := not_le.mp hlt
  have hbelow := le_of_lt_upperBound hlt'
  have habove := lt_of_upperBound_eq (hlt'.trans_le upperBound_le_length)
  exact absurd (hbelow.trans hvw) (not_le.mpr habove)

section Values

variable {limits values : List ℚ} {h : Histogram} {least greatest : ℚ}

/-- The counters of an exact histogram. -/
theorem Tallied.bucket (ht : Tallied .exact limits values h) {i : ℕ} (hi : i < h.buckets.length) :
    h.buckets.getD i 0 = values.countP fun v => slot limits v = (i : ℤ) := by
  rw [ht.length] at hi
  rw [ht.buckets]
  simp only [List.getD_eq_getElem?_getD, List.getElem?_map, List.getElem?_range hi, Option.map_some,
    Option.getD_some]
  rfl

theorem Tallied.exists_value (ht : Tallied .exact limits values h) {i : ℕ} (hpos : 0 < h.buckets.getD i 0) :
    ∃ v ∈ values, slot limits v = (i : ℤ) := by
  have hi : i < h.buckets.length := by
    by_contra hge
    rw [List.getD_eq_default _ _ (not_lt.mp hge)] at hpos
    exact absurd hpos (lt_irrefl 0)
  rw [ht.bucket hi] at hpos
  obtain ⟨v, hv, hslot⟩ := List.countP_pos_iff.mp hpos
  exact ⟨v, hv, of_decide_eq_true hslot⟩

theorem Tallied.bucket_pos (ht : Tallied .exact limits values h) {v : ℚ} (hv : v ∈ values) {i : ℕ}
    (hi : i < h.buckets.length) (hslot : slot limits v = (i : ℤ)) : 0 < h.buckets.getD i 0 := by
  rw [ht.bucket hi]
  exact List.countP_pos_iff.mpr ⟨v, hv, decide_eq_true hslot⟩

/-- All values are counted. -/
theorem Tallied.num_eq_sum (ht : Tallied .exact limits values h) (hfits : ∀ v ∈ values, Fits limits v) :
    h.num = h.buckets.sum := by
  have hslots : ∀ v ∈ values, (slot limits v).toNat < limits.length := by
    intro v hv
    have := hfits v hv
    rw [Fits] at this
    omega
  have hbuckets : h.buckets =
      (List.range limits.length).map fun i => values.countP fun v => (slot limits v).toNat = i := by
    rw [ht.buckets]
    refine List.map_congr_left fun i _ => List.countP_congr fun v hv => ?_
    have := (hfits v hv).1
    simp only [decide_eq_true_eq]
    omega
  rw [ht.num, hbuckets, sum_countP _ _ _ hslots]
  rfl

variable (hne : limits ≠ []) (hinc : limits.Pairwise (· < ·))
  (hvalues : ∀ v ∈ values, -dblMax ≤ v ∧ v < limits.getLast hne)
  (hleast : IsLeast {v | v ∈ values} least) (hgreatest : IsGreatest {v | v ∈ values} greatest)

include hvalues

include hleast in
theorem Tallied.min_eq (ht : Tallied .exact limits values h) : h.min_ = least := by
  rw [ht.min_, List.getLastD_eq_getLast?, List.getLast?_eq_some_getLast hne, Option.getD_some]
  exact foldl_min_eq hleast (hvalues least hleast.1).2.le

include hgreatest in
theorem Tallied.max_eq (ht : Tallied .exact limits values h) : h.max_ = greatest := by
  rw [ht.max_]
  exact foldl_max_eq hgreatest (hvalues greatest hgreatest.1).1

include hinc hleast hgreatest

/-- **An `int` that numbers the buckets is enough.** -/
theorem ordered_of_upperBound_lt (hnumbers : ∀ v ∈ values, upperBound limits v < 2 ^ 31) :
    ∃ h, addAll .exact limits values = .ok h ∧ Ordered h least greatest := by
  have hub : ∀ v ∈ values, upperBound limits v < limits.length := fun v hv =>
    (upperBound_lt_length_iff hne hinc).mpr (hvalues v hv).2
  have hslot : ∀ v ∈ values, slot limits v = upperBound limits v := fun v hv =>
    slot_eq_iff.mpr (hnumbers v hv)
  have hfits : ∀ v ∈ values, Fits limits v := by
    intro v hv
    have := hub v hv
    rw [Fits, hslot v hv]
    omega
  obtain ⟨h, hrun, ht⟩ := addAll_tallied (A := .exact) hne hinc hfits
  have hmin := ht.min_eq hne hvalues hleast
  have hmax := ht.max_eq hne hvalues hgreatest
  have hnum := ht.num_eq_sum hfits
  have hpos : 0 < h.num := by
    rw [ht.num]
    exact List.length_pos_of_mem hleast.1
  have hf : Filled h := by
    refine ⟨ht.bucketLimits ▸ hinc, ht.bucketLimits ▸ ht.length, fun i hi => ?_⟩
    obtain ⟨v, hv, hi⟩ := ht.exists_value hi
    have hi' : upperBound limits v = i := by
      have := hslot v hv
      omega
    refine ⟨v, ?_, hmin ▸ hleast.2 hv, hmax ▸ hgreatest.2 hv⟩
    rw [ht.bucketLimits, inBucket_iff hinc (hi' ▸ hub v hv)]
    exact hi'
  refine ⟨h, hrun, ?_, ?_, ?_, ?_⟩
  · rw [percentile_zero hnum hpos, hmin]
  · obtain ⟨k, hk, hlast, hlater, hhundred⟩ := percentile_hundred hnum hpos
    obtain ⟨u, hu, hku⟩ := ht.exists_value hlast
    have hubgreatest := hub greatest hgreatest.1
    have hgpos := ht.bucket_pos hgreatest.1 (ht.length ▸ hubgreatest) (hslot greatest hgreatest.1)
    -- the greatest value is in the last bucket that is not empty
    have hkg : upperBound limits greatest = k := by
      have hle := @upperBound_mono limits _ _ (hgreatest.2 hu)
      have hsu := hslot u hu
      by_contra hne'
      have hzero := hlater (upperBound limits greatest) (by omega)
      omega
    rw [hhundred, rhs, ht.bucketLimits, hmax, ← hkg, min_eq_right (lt_of_upperBound_eq hubgreatest).le]
  · intro p hp hp'
    obtain ⟨q, hq, -, hlo, hhi⟩ := percentile_mem hnum hpos hf hp hp'
    exact ⟨q, hq, hmin ▸ hlo, hmax ▸ hhi⟩
  · intro p p' hp hpp' hp'
    exact percentile_rises hnum hpos hf hp hpp' hp'

/-- **And it is needed**: otherwise the last percentile is a limit below the greatest value. -/
theorem upperBound_lt_of_ordered (hrun : addAll .exact limits values = .ok h)
    (hordered : Ordered h least greatest) : ∀ v ∈ values, upperBound limits v < 2 ^ 31 := by
  have hfits := fits_of_addAll hne hinc hrun
  obtain ⟨h', hrun', ht⟩ := addAll_tallied (A := .exact) hne hinc hfits
  obtain rfl : h' = h := Except.ok.inj (hrun'.symm.trans hrun)
  have hnum := ht.num_eq_sum hfits
  have hpos : 0 < h'.num := by
    rw [ht.num]
    exact List.length_pos_of_mem hleast.1
  intro v hv
  by_contra hlarge
  have hglarge := @upperBound_mono limits _ _ (hgreatest.2 hv)
  obtain ⟨k, hk, hlast, -, hhundred⟩ := percentile_hundred hnum hpos
  obtain ⟨u, hu, hku⟩ := ht.exists_value hlast
  have hksmall := @slot_lt limits u
  -- the number 2 ^ 31 itself would be negative
  have hkg : k + 1 < upperBound limits greatest := by
    by_contra hge
    have heq : upperBound limits greatest = 2 ^ 31 := by omega
    have hneg : slot limits greatest = -2 ^ 31 := by
      unfold slot
      rw [heq]
      rfl
    have := (hfits greatest hgreatest.1).1
    omega
  have hlimit : limits.getD k 0 < greatest :=
    (getD_lt_getD hinc (Nat.lt_succ_self k) (hkg.trans_le upperBound_le_length)).trans_le
      (le_of_lt_upperBound hkg)
  have hmax := ht.max_eq hne hvalues hgreatest
  have htop := Except.ok.inj (hhundred.symm.trans hordered.hundred)
  rw [rhs, ht.bucketLimits, hmax, min_eq_left hlimit.le] at htop
  exact hlimit.ne htop

/-- **Percentiles rise from the least value to the greatest**, exactly if an `int` can number the buckets of
all values. -/
theorem percentile_ordered_iff :
    (∃ h, addAll .exact limits values = .ok h ∧ Ordered h least greatest) ↔
      ∀ v ∈ values, upperBound limits v < 2 ^ 31 := by
  constructor
  · rintro ⟨h, hrun, hordered⟩
    exact upperBound_lt_of_ordered hne hinc hvalues hleast hgreatest hrun hordered
  · exact ordered_of_upperBound_lt hne hinc hvalues hleast hgreatest

end Values

/-- Small numbers are above `-DBL_MAX`. -/
theorem neg_dblMax_le {v : ℚ} (hv : -2 ^ 31 ≤ v) : -dblMax ≤ v := by
  have hsplit : (2 : ℚ) ^ 1024 = 2 ^ 971 * 2 ^ 53 := by rw [← pow_add]
  have hsmall : (2 : ℚ) ^ 31 ≤ 2 ^ 971 := pow_le_pow_right₀ (by norm_num) (by norm_num)
  rw [dblMax, hsplit]
  generalize (2 : ℚ) ^ 971 = x at hsmall
  linarith

/-- Values below all limits, and on a limit. -/
theorem percentile_ordered_four :
    ∃ h, addAll .exact [1, 2, 3, 4] [-1, 3, 1] = .ok h ∧ Ordered h (-1) 3 :=
  (@percentile_ordered_iff [1, 2, 3, 4] [-1, 3, 1] (-1) 3 (by decide) (by decide)
    (by simp only [List.forall_mem_cons]; exact ⟨⟨neg_dblMax_le (by norm_num), by decide⟩,
      ⟨neg_dblMax_le (by norm_num), by decide⟩, ⟨neg_dblMax_le (by norm_num), by decide⟩, by simp⟩)
    (by constructor <;> norm_num [lowerBounds])
    (by constructor <;> norm_num [upperBounds])).mpr (by decide)

/-- The limits 0, 1, …, 2³¹. -/
def manyLimits : List ℚ := (List.range (2 ^ 31 + 1)).map fun i : ℕ => (i : ℚ)

theorem getD_manyLimits {i : ℕ} (hi : i < 2 ^ 31 + 1) : manyLimits.getD i 0 = i := by
  rw [manyLimits, List.getD_eq_getElem?_getD, List.getElem?_map, List.getElem?_range hi]
  rfl

theorem length_manyLimits : manyLimits.length = 2 ^ 31 + 1 := by
  rw [manyLimits, List.length_map, List.length_range]

theorem manyLimits_increasing : manyLimits.Pairwise (· < ·) := by
  rw [manyLimits, List.pairwise_map]
  exact List.pairwise_lt_range.imp fun h => Nat.cast_lt.mpr h

theorem manyLimits_ne_nil : manyLimits ≠ [] := List.ne_nil_of_length_pos (by rw [length_manyLimits]; omega)

/-- The value 2³¹ - 1 would be counted in the bucket number -2³¹. -/
theorem percentile_not_ordered_many :
    manyLimits.Pairwise (· < ·) ∧ (2 ^ 31 - 1 : ℚ) < manyLimits.getLast manyLimits_ne_nil ∧
      ¬ ∃ h, addAll .exact manyLimits [2 ^ 31 - 1] = .ok h ∧ Ordered h (2 ^ 31 - 1) (2 ^ 31 - 1) := by
  have hlt : 2 ^ 31 < manyLimits.length := by
    rw [length_manyLimits]
    omega
  have hub : upperBound manyLimits (2 ^ 31 - 1) = 2 ^ 31 := by
    rw [← inBucket_iff manyLimits_increasing hlt, InBucket, getD_manyLimits (by norm_num),
      getD_manyLimits (by norm_num)]
    norm_num
  refine ⟨manyLimits_increasing, ?_, ?_⟩
  · rw [← upperBound_lt_length_iff manyLimits_ne_nil manyLimits_increasing, hub]
    exact hlt
  · rintro ⟨h, hrun, -⟩
    have hfits := fits_of_addAll manyLimits_ne_nil manyLimits_increasing hrun _ List.mem_cons_self
    have hneg : slot manyLimits (2 ^ 31 - 1) = -2 ^ 31 := by
      unfold slot
      rw [hub]
      rfl
    rw [Fits, hneg] at hfits
    exact absurd hfits.1 (by decide)

end LearnNetlib.Histogram
