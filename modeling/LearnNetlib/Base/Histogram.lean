import Mathlib.Algebra.Order.Ring.Rat
import Mathlib.Algebra.BigOperators.Group.List.Basic
import Mathlib.Algebra.BigOperators.Intervals
import Mathlib.Data.List.GetD
import Mathlib.Data.List.Induction
import Mathlib.Order.Nat
import Mathlib.Tactic.Linarith

/-!
# `Histogram`

A finite `double` is the number it stands for.

* `Histogram.new`, `add`, `percentile` — the code of `base/histogram.cc`, without `sum_` and `sum_squares_`,
  which only the average and the standard deviation read;
* `Counts` — what the buckets are for;
* `Tallied` — the histogram after some values, whichever buckets `int b` sends them to; `add_tallied`;
* **`histogram_counts_iff`** — the buckets count what they should exactly if all values are below the last
  limit, an `int` can number their buckets, and there are 2⁵³ of them at most.
-/

namespace LearnNetlib

/-! ### The code -/

/-- How the counters count: exactly, or as a `double`, which adding one does not take past 2⁵³. -/
inductive Arithmetic
  | exact
  | double
  deriving Repr, DecidableEq

/-- `+= 1.0` and `++`. -/
def Arithmetic.incr : Arithmetic → ℕ → ℕ
  | .exact, c => c + 1
  | .double, c => if c < 2 ^ 53 then c + 1 else c

/-- What a counter shows after counting to `n`. -/
def Arithmetic.tally : Arithmetic → ℕ → ℕ
  | .exact, n => n
  | .double, n => min n (2 ^ 53)

theorem incr_tally (A : Arithmetic) (n : ℕ) : A.incr (A.tally n) = A.tally (n + 1) := by
  cases A with
  | exact => rfl
  | double =>
    rcases Nat.lt_or_ge n (2 ^ 53) with hlt | hge
    · rw [Arithmetic.tally, Arithmetic.tally, min_eq_left hlt.le, min_eq_left hlt, Arithmetic.incr, if_pos hlt]
    · rw [Arithmetic.tally, Arithmetic.tally, min_eq_right hge, min_eq_right (by omega), Arithmetic.incr,
        if_neg (lt_irrefl _)]

theorem tally_zero (A : Arithmetic) : A.tally 0 = 0 := by
  cases A <;> rfl

/-- `DBL_MAX`. -/
def dblMax : ℚ := 2 ^ 1024 - 2 ^ 971

/-- `Histogram`. -/
structure Histogram where
  min_ : ℚ
  max_ : ℚ
  num : ℕ
  bucketLimits : List ℚ
  buckets : List ℕ
  deriving Repr, DecidableEq

namespace Histogram

/-- What may go wrong. -/
inductive Failure
  | checkFailed
  | outOfRange
  | divisionByZero
  deriving Repr, DecidableEq

/-- `Clear`. -/
def clear (limits : List ℚ) : Histogram :=
  ⟨limits.getLastD 0, -dblMax, 0, limits, List.replicate limits.length 0⟩

/-- `Histogram(custom_bucket_limits)`. -/
def new (limits : List ℚ) : Except Failure Histogram :=
  if limits ≠ [] ∧ limits.IsChain (· < ·) then .ok (clear limits) else .error .checkFailed

/-- `std::upper_bound`: the first limit above the value. -/
def upperBound (limits : List ℚ) (value : ℚ) : ℕ := limits.findIdx fun limit => value < limit

/-- The `int` that is made of it. -/
def slot (limits : List ℚ) (value : ℚ) : ℤ := (upperBound limits value : ℤ).bmod (2 ^ 32)

/-- What `Add` writes, `b` being the bucket. -/
def tallyAt (A : Arithmetic) (h : Histogram) (b : ℕ) (value : ℚ) : Histogram :=
  { h with
    buckets := h.buckets.modify b A.incr
    min_ := if h.min_ > value then value else h.min_
    max_ := if h.max_ < value then value else h.max_
    num := A.incr h.num }

/-- `Add`. -/
def add (A : Arithmetic) (h : Histogram) (value : ℚ) : Except Failure Histogram :=
  let b := slot h.bucketLimits value
  if 0 ≤ b ∧ b < h.buckets.length then .ok (h.tallyAt A b.toNat value) else .error .outOfRange

/-- A histogram, and the values added to it. -/
def addAll (A : Arithmetic) (limits values : List ℚ) : Except Failure Histogram := do
  let h ← new limits
  values.foldlM (add A) h

/-- `Remap`. -/
def remap (x x0 x1 y0 y1 : ℚ) : Except Failure ℚ :=
  if x1 - x0 = 0 then .error .divisionByZero else .ok (y0 + (x - x0) / (x1 - x0) * (y1 - y0))

/-- The loop of `Percentile`, from the bucket number `i` on. -/
def percentileLoop (h : Histogram) (threshold : ℚ) : ℕ → ℚ → List ℕ → Except Failure ℚ
  | _, _, [] => .ok h.max_
  | i, cumsumPrev, bucket :: buckets =>
    let cumsum := cumsumPrev + bucket
    if cumsum ≥ threshold then
      if cumsum = cumsumPrev then percentileLoop h threshold (i + 1) cumsumPrev buckets
      else
        let lhs := if i = 0 ∨ cumsumPrev = 0 then h.min_ else h.bucketLimits.getD (i - 1) 0
        let lhs := max lhs h.min_
        let rhs := min (h.bucketLimits.getD i 0) h.max_
        remap threshold cumsumPrev cumsum lhs rhs
    else percentileLoop h threshold (i + 1) cumsum buckets

/-- `Percentile`. -/
def percentile (h : Histogram) (p : ℚ) : Except Failure ℚ :=
  if h.num = 0 then .ok 0 else percentileLoop h (h.num * (p / 100)) 0 0 h.buckets

/-- `Median`. -/
def median (h : Histogram) : Except Failure ℚ := h.percentile 50

/-! ### What it is for -/

/-- The bucket `i` is for the value. -/
def InBucket (limits : List ℚ) (i : ℕ) (value : ℚ) : Prop :=
  (i = 0 ∨ limits.getD (i - 1) 0 ≤ value) ∧ value < limits.getD i 0

instance (limits : List ℚ) (i : ℕ) (value : ℚ) : Decidable (InBucket limits i value) :=
  inferInstanceAs (Decidable (_ ∧ _))

/-- Every value has its bucket, the buckets count their values, and together they count all. -/
structure Counts (limits values : List ℚ) (h : Histogram) : Prop where
  placed : ∀ v ∈ values, ∃ i < limits.length, InBucket limits i v
  bucket : ∀ i < limits.length, h.buckets.getD i 0 = values.countP fun v => InBucket limits i v
  sum : h.buckets.sum = h.num

/-- The values can be added, and are counted all along. -/
def AlwaysCounts (limits values : List ℚ) : Prop :=
  ∀ done, done <+: values → ∃ h, addAll .double limits done = .ok h ∧ Counts limits done h

/-! ### Limits -/

section Limits

variable {limits : List ℚ} {v : ℚ} {i : ℕ}

theorem upperBound_le_length : upperBound limits v ≤ limits.length := List.findIdx_le_length

theorem le_of_lt_upperBound (hi : i < upperBound limits v) : limits.getD i 0 ≤ v := by
  have hlt : i < limits.length := lt_of_lt_of_le hi upperBound_le_length
  have hnot := List.not_of_lt_findIdx hi
  rw [List.getD_eq_getElem _ _ hlt]
  simpa using hnot

theorem lt_of_upperBound_eq (hlt : upperBound limits v < limits.length) :
    v < limits.getD (upperBound limits v) 0 := by
  have hfound := @List.findIdx_getElem _ (fun limit => decide (v < limit)) limits hlt
  rw [List.getD_eq_getElem _ _ hlt]
  exact of_decide_eq_true hfound

theorem getD_lt_getD (hinc : limits.Pairwise (· < ·)) {j : ℕ} (hij : i < j) (hj : j < limits.length) :
    limits.getD i 0 < limits.getD j 0 := by
  rw [List.getD_eq_getElem _ _ (hij.trans hj), List.getD_eq_getElem _ _ hj]
  exact List.pairwise_iff_getElem.mp hinc i j _ _ hij

/-- **The bucket of a value** is at its upper bound. -/
theorem inBucket_iff (hinc : limits.Pairwise (· < ·)) (hi : i < limits.length) :
    InBucket limits i v ↔ upperBound limits v = i := by
  constructor
  · rintro ⟨hlow, hhigh⟩
    apply le_antisymm
    · by_contra hlt
      exact absurd (le_of_lt_upperBound (not_le.mp hlt)) (not_le.mpr hhigh)
    · by_contra hlt
      have hub : upperBound limits v < i := not_le.mp hlt
      have hprev : limits.getD (i - 1) 0 ≤ v := hlow.resolve_left (by omega)
      have habove := lt_of_upperBound_eq (hub.trans hi)
      rcases Nat.lt_or_eq_of_le (Nat.le_sub_one_of_lt hub) with hless | heq
      · have := getD_lt_getD hinc hless (by omega)
        linarith
      · rw [heq] at habove
        linarith
  · rintro rfl
    refine ⟨?_, lt_of_upperBound_eq hi⟩
    rcases Nat.eq_zero_or_pos (upperBound limits v) with hzero | hpos
    · exact .inl hzero
    · exact .inr (le_of_lt_upperBound (Nat.sub_lt hpos Nat.one_pos))

/-- Below the last limit there is a bucket. -/
theorem upperBound_lt_length_iff (hne : limits ≠ []) (hinc : limits.Pairwise (· < ·)) :
    upperBound limits v < limits.length ↔ v < limits.getLast hne := by
  have hlen := List.length_pos_iff.mpr hne
  have hlast : limits.getLast hne = limits.getD (limits.length - 1) 0 := by
    rw [List.getLast_eq_getElem, List.getD_eq_getElem]
  rw [hlast]
  constructor
  · intro hlt
    refine (lt_of_upperBound_eq hlt).trans_le ?_
    rcases Nat.lt_or_eq_of_le (Nat.le_sub_one_of_lt hlt) with hless | heq
    · exact (getD_lt_getD hinc hless (by omega)).le
    · rw [heq]
  · intro hlt
    by_contra hge
    exact absurd (le_of_lt_upperBound (show limits.length - 1 < upperBound limits v by omega))
      (not_le.mpr hlt)

/-- An `int` holds the number of a bucket below 2³¹. -/
theorem slot_eq_iff : slot limits v = upperBound limits v ↔ upperBound limits v < 2 ^ 31 := by
  unfold slot
  constructor
  · intro h
    have hlt : (upperBound limits v : ℤ).bmod (2 ^ 32) < (2 ^ 32 + 1) / 2 := Int.bmod_lt (by decide)
    omega
  · intro h
    exact Int.bmod_eq_of_le (by omega) (by omega)

theorem slot_lt : slot limits v < 2 ^ 31 := by
  have hlt : slot limits v < (2 ^ 32 + 1) / 2 := Int.bmod_lt (by decide)
  omega

end Limits

/-! ### Runs -/

section Runs

variable {A : Arithmetic} {limits values : List ℚ} {v : ℚ} {h : Histogram}

/-- The value can be added. -/
def Fits (limits : List ℚ) (v : ℚ) : Prop := 0 ≤ slot limits v ∧ slot limits v < limits.length

/-- The histogram after the values. -/
structure Tallied (A : Arithmetic) (limits values : List ℚ) (h : Histogram) : Prop where
  bucketLimits : h.bucketLimits = limits
  buckets : h.buckets = (List.range limits.length).map fun i : ℕ =>
    A.tally (values.countP fun v => slot limits v = (i : ℤ))
  num : h.num = A.tally values.length
  min_ : h.min_ = values.foldl min (limits.getLastD 0)
  max_ : h.max_ = values.foldl max (-dblMax)

theorem Tallied.length (ht : Tallied A limits values h) : h.buckets.length = limits.length := by
  rw [ht.buckets, List.length_map, List.length_range]

theorem clear_tallied (A : Arithmetic) (limits : List ℚ) : Tallied A limits [] (clear limits) := by
  refine ⟨rfl, ?_, (tally_zero A).symm, rfl, rfl⟩
  simp only [List.countP_nil, tally_zero]
  rw [List.map_const', List.length_range, clear]

/-- Adding to one counter of a list of counters. -/
theorem modify_map_range (f : ℕ → ℕ) (g : ℕ → ℕ) (n b : ℕ) :
    ((List.range n).map f).modify b g = (List.range n).map fun i => if i = b then g (f i) else f i := by
  refine List.ext_getElem (by simp) fun i hi hi' => ?_
  simp only [List.getElem_modify, List.getElem_map, List.getElem_range]
  simp only [eq_comm]

/-- **Adding a value** counts it in the bucket that `int b` says. -/
theorem add_tallied (ht : Tallied A limits values h) (hv : Fits limits v) :
    ∃ h', add A h v = .ok h' ∧ Tallied A limits (values ++ [v]) h' := by
  obtain ⟨b, hb⟩ := Int.eq_ofNat_of_zero_le hv.1
  refine ⟨h.tallyAt A b v, ?_, ht.bucketLimits, ?_, ?_, ?_, ?_⟩
  · have hrange : 0 ≤ (b : ℤ) ∧ (b : ℤ) < limits.length := hb ▸ hv
    simp only [add, ht.bucketLimits, ht.length, hb, Int.toNat_natCast, if_pos hrange]
  · rw [tallyAt, ht.buckets, modify_map_range]
    refine List.map_congr_left fun i _ => ?_
    rw [List.countP_append, List.countP_singleton, hb]
    by_cases hi : i = b
    · subst hi
      simp [incr_tally]
    · simp [hi, Ne.symm hi]
  · rw [tallyAt, ht.num, incr_tally, List.length_append, List.length_singleton]
  · rw [tallyAt, ht.min_, List.foldl_append, List.foldl_cons, List.foldl_nil, min_def]
    split_ifs <;> linarith
  · rw [tallyAt, ht.max_, List.foldl_append, List.foldl_cons, List.foldl_nil, max_def]
    split_ifs <;> linarith

/-- A value that does not fit is counted outside of the buckets. -/
theorem add_eq_error (ht : Tallied A limits values h) (hv : ¬ Fits limits v) :
    add A h v = .error .outOfRange := by
  rw [add, ht.bucketLimits, ht.length]
  exact if_neg hv

theorem Failure.ok_bind {α β : Type} (a : α) (f : α → Except Failure β) : (Except.ok a >>= f) = f a := rfl

variable (hne : limits ≠ []) (hinc : limits.Pairwise (· < ·))

include hne hinc

theorem addAll_nil : addAll A limits [] = .ok (clear limits) := by
  rw [addAll, new, if_pos ⟨hne, List.isChain_iff_pairwise.mpr hinc⟩]
  rfl

omit hne hinc in
theorem addAll_concat : addAll A limits (values ++ [v]) = addAll A limits values >>= (add A · v) := by
  rw [addAll, addAll, bind_assoc]
  refine congrArg _ (funext fun h => ?_)
  rw [List.foldlM_append]
  simp only [List.foldlM_cons, List.foldlM_nil, bind_pure]

omit hne hinc in
theorem addAll_concat_of_ok (hrun : addAll A limits values = .ok h) :
    addAll A limits (values ++ [v]) = add A h v := by
  rw [addAll_concat, hrun, Failure.ok_bind]

/-- **Values that fit** can be added one after the other. -/
theorem addAll_tallied (hfits : ∀ v ∈ values, Fits limits v) :
    ∃ h, addAll A limits values = .ok h ∧ Tallied A limits values h := by
  induction values using List.reverseRecOn with
  | nil => exact ⟨clear limits, addAll_nil hne hinc, clear_tallied A limits⟩
  | append_singleton values v ih =>
    rw [List.forall_mem_append, List.forall_mem_singleton] at hfits
    obtain ⟨h, hrun, ht⟩ := ih hfits.1
    obtain ⟨h', hadd, ht'⟩ := add_tallied ht hfits.2
    exact ⟨h', (addAll_concat_of_ok hrun).trans hadd, ht'⟩

/-- Only values that fit can be added. -/
theorem fits_of_addAll (hrun : addAll A limits values = .ok h) : ∀ v ∈ values, Fits limits v := by
  induction values using List.reverseRecOn generalizing h with
  | nil => simp
  | append_singleton values v ih =>
    cases hfirst : addAll A limits values with
    | error e =>
      rw [addAll_concat, hfirst] at hrun
      cases hrun
    | ok h₁ =>
      have hfits := ih hfirst
      obtain ⟨h₂, hrun₂, ht⟩ := addAll_tallied (A := A) hne hinc hfits
      obtain rfl : h₂ = h₁ := Except.ok.inj (hrun₂.symm.trans hfirst)
      rw [List.forall_mem_append, List.forall_mem_singleton]
      refine ⟨hfits, ?_⟩
      by_contra hv
      rw [addAll_concat_of_ok hfirst, add_eq_error ht hv] at hrun
      cases hrun

end Runs

/-! ### Counting -/

section Counting

variable {limits values : List ℚ} {h : Histogram}

/-- Counting by number counts everything. -/
theorem sum_countP {α : Type*} (f : α → ℕ) (k : ℕ) (l : List α) (hk : ∀ a ∈ l, f a < k) :
    ((List.range k).map fun i => l.countP fun a => f a = i).sum = l.length := by
  induction l with
  | nil => simp
  | cons a l ih =>
    rw [List.forall_mem_cons] at hk
    have hone : ((List.range k).map fun i => if f a = i then 1 else 0).sum = 1 := by
      rw [← List.sum_toFinset _ List.nodup_range, Finset.sum_ite_eq, if_pos (by simpa using hk.1)]
    simp only [List.countP_cons, decide_eq_true_eq]
    rw [List.sum_map_add, ih hk.2, hone, List.length_cons]

/-- What only one of two tests counts. -/
theorem countP_lt_countP {α : Type*} {p q : α → Bool} {l : List α} {a : α}
    (hqp : ∀ b ∈ l, q b = true → p b = true) (ha : a ∈ l) (hp : p a = true) (hq : q a = false) :
    l.countP q < l.countP p := by
  obtain ⟨s, t, rfl⟩ := List.append_of_mem ha
  have hs : s.countP q ≤ s.countP p := List.countP_mono_left fun b hb => hqp b (by simp [hb])
  have ht : t.countP q ≤ t.countP p := List.countP_mono_left fun b hb => hqp b (by simp [hb])
  rw [List.countP_append, List.countP_append, List.countP_cons, List.countP_cons, hp, hq]
  simp
  omega

theorem tally_double {n : ℕ} (hn : n ≤ 2 ^ 53) : Arithmetic.double.tally n = n := min_eq_left hn

/-- The buckets of a histogram that counts what it should. -/
theorem Counts.buckets_eq (hc : Counts limits values h) (hinc : limits.Pairwise (· < ·))
    (hlen : h.buckets.length = limits.length) :
    h.buckets = (List.range limits.length).map fun i => values.countP fun v => upperBound limits v = i := by
  refine List.ext_getElem (by simp [hlen]) fun i hi hi' => ?_
  have hlt : i < limits.length := hlen ▸ hi
  have hbucket := hc.bucket i hlt
  rw [List.getD_eq_getElem _ _ hi] at hbucket
  rw [hbucket, List.getElem_map, List.getElem_range]
  exact List.countP_congr fun v _ => by simp [inBucket_iff hinc hlt]

/-- **The conditions are needed.** -/
theorem Counts.conditions (hne : limits ≠ []) (hinc : limits.Pairwise (· < ·))
    (hrun : addAll .double limits values = .ok h) (hc : Counts limits values h) :
    (∀ v ∈ values, v < limits.getLast hne ∧ upperBound limits v < 2 ^ 31) ∧ values.length ≤ 2 ^ 53 := by
  have hfits := fits_of_addAll hne hinc hrun
  obtain ⟨h', hrun', ht⟩ := addAll_tallied (A := .double) hne hinc hfits
  obtain rfl : h' = h := Except.ok.inj (hrun'.symm.trans hrun)
  have hub : ∀ v ∈ values, upperBound limits v < limits.length := by
    intro v hv
    obtain ⟨i, hi, hin⟩ := hc.placed v hv
    rwa [(inBucket_iff hinc hi).mp hin]
  have hbuckets := hc.buckets_eq hinc ht.length
  have hlen : values.length ≤ 2 ^ 53 := by
    have hsum := hc.sum
    rw [hbuckets, sum_countP _ _ _ hub, ht.num] at hsum
    rw [hsum]
    exact min_le_right _ _
  refine ⟨fun v hv => ⟨(upperBound_lt_length_iff hne hinc).mp (hub v hv), ?_⟩, hlen⟩
  by_contra hlarge
  -- the value is counted for a bucket that is not its own
  obtain ⟨b, hb⟩ := Int.eq_ofNat_of_zero_le (hfits v hv).1
  have hbsmall : b < 2 ^ 31 := by
    have := @slot_lt limits v
    omega
  have hblt : b < limits.length := by
    have := (hfits v hv).2
    omega
  have hown : upperBound limits v ≠ b := by omega
  have hmore : (values.countP fun u => upperBound limits u = b) <
      values.countP fun u => slot limits u = (b : ℤ) := by
    refine countP_lt_countP (fun u _ hu => ?_) hv (decide_eq_true hb) (decide_eq_false hown)
    have hu' : upperBound limits u = b := of_decide_eq_true hu
    rw [decide_eq_true_eq, slot_eq_iff.mpr (hu' ▸ hbsmall), hu']
  have hsame := congrArg (fun l => l.getD b 0) (hbuckets.symm.trans ht.buckets)
  simp only [List.getD_eq_getElem?_getD, List.getElem?_map, List.getElem?_range hblt, Option.map_some,
    Option.getD_some] at hsame
  rw [tally_double (List.countP_le_length.trans hlen)] at hsame
  omega

/-- **The conditions suffice.** -/
theorem counts_of_conditions (hne : limits ≠ []) (hinc : limits.Pairwise (· < ·))
    (hvalues : ∀ v ∈ values, v < limits.getLast hne ∧ upperBound limits v < 2 ^ 31)
    (hlen : values.length ≤ 2 ^ 53) :
    ∃ h, addAll .double limits values = .ok h ∧ Counts limits values h := by
  have hub : ∀ v ∈ values, upperBound limits v < limits.length := fun v hv =>
    (upperBound_lt_length_iff hne hinc).mpr (hvalues v hv).1
  have hslot : ∀ v ∈ values, slot limits v = upperBound limits v := fun v hv =>
    slot_eq_iff.mpr (hvalues v hv).2
  have hfits : ∀ v ∈ values, Fits limits v := by
    intro v hv
    have := hub v hv
    rw [Fits, hslot v hv]
    omega
  obtain ⟨h, hrun, ht⟩ := addAll_tallied (A := .double) hne hinc hfits
  have hbuckets : h.buckets =
      (List.range limits.length).map fun i => values.countP fun v => upperBound limits v = i := by
    rw [ht.buckets]
    refine List.map_congr_left fun i _ => ?_
    rw [tally_double (List.countP_le_length.trans hlen)]
    exact List.countP_congr fun v hv => by simp [hslot v hv]
  refine ⟨h, hrun, fun v hv => ⟨_, hub v hv, (inBucket_iff hinc (hub v hv)).mpr rfl⟩, fun i hi => ?_, ?_⟩
  · rw [hbuckets]
    simp only [List.getD_eq_getElem?_getD, List.getElem?_map, List.getElem?_range hi, Option.map_some,
      Option.getD_some]
    exact List.countP_congr fun v _ => by simp [inBucket_iff hinc hi]
  · rw [hbuckets, sum_countP _ _ _ hub, ht.num, tally_double hlen]

/-- **The buckets count what they should** exactly if all values are below the last limit, an `int` can number
their buckets, and there are no more of them than a `double` can count. -/
theorem histogram_counts_iff (hne : limits ≠ []) (hinc : limits.Pairwise (· < ·)) (values : List ℚ) :
    AlwaysCounts limits values ↔
      (∀ v ∈ values, v < limits.getLast hne ∧ upperBound limits v < 2 ^ 31) ∧ values.length ≤ 2 ^ 53 := by
  constructor
  · intro hall
    obtain ⟨h, hrun, hc⟩ := hall values List.prefix_rfl
    exact hc.conditions hne hinc hrun
  · rintro ⟨hvalues, hlen⟩ done hdone
    exact counts_of_conditions hne hinc (fun v hv => hvalues v (hdone.subset hv))
      (hdone.length_le.trans hlen)

/-- A value below all limits, and two on a limit. -/
theorem histogram_counts_four : AlwaysCounts [1, 2, 3, 4] [-1, 1, 3] :=
  (@histogram_counts_iff [1, 2, 3, 4] (by decide) (by decide) [-1, 1, 3]).mpr ⟨by decide, by decide⟩

/-- A value equal to the last limit is counted behind the last bucket. -/
theorem histogram_not_counts_four : ¬ AlwaysCounts [1, 2, 3, 4] [4] := by
  intro hall
  obtain ⟨h, hrun, -⟩ := hall [4] List.prefix_rfl
  have hfits := fits_of_addAll (by decide) (by decide) hrun 4 List.mem_cons_self
  have hslot : slot [1, 2, 3, 4] 4 = 4 := by decide
  rw [Fits, hslot] at hfits
  exact absurd hfits.2 (by decide)

end Counting

end Histogram

end LearnNetlib
