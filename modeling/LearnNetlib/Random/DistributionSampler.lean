import LearnNetlib.Foundations.AliasTable
import LearnNetlib.Foundations.Loops
import LearnNetlib.Random.WeightedPicker
import Mathlib.Algebra.BigOperators.Field
import Mathlib.Algebra.BigOperators.Fin
import Mathlib.Algebra.Order.Field.Rat
import Mathlib.Data.Fintype.BigOperators
import Mathlib.Tactic.FieldSimp
import Mathlib.Tactic.Linarith

/-!
# `random::DistributionSampler`

In exact arithmetic: a `float` and a `double` are rational numbers here, an `int` has its 32 bits.

* `DistributionSampler.new`, `sample` — the code of `base/random/distribution_sampler.cc` and `.h`;
* `Exact` — what the tables are for;
* `Represents`, `Inv` — the arrays and stacks are an alias table with the shares of the weights and nothing
  missing; `pairUp_inv` — a round of the pairing keeps that;
* **`sampler_exact_iff`** — the tables are exact, and made in as many rounds as there are weights at most,
  unless there are 2³¹ weights or more.
-/

namespace LearnNetlib.Random

open LearnNetlib.Loops

/-! ### The code -/

/-- `DistributionSampler`; `data` is `data_`. -/
structure DistributionSampler where
  num : ℕ
  data : Fin num → ℚ × ℤ

namespace DistributionSampler

/-- How the constructor or a call may fail. -/
inductive Failure
  | checkFailed
  | badArrayLength
  | divisionByZero
  | stillRunning
  deriving Repr, DecidableEq

/-- What the constructor works with; the stacks have their backs first. -/
structure Work (n : ℕ) where
  pr : Fin n → ℚ
  alt : Fin n → ℤ
  high : List (Fin n)
  low : List (Fin n)

variable {n : ℕ}

/-- One turn of the loop that computes proportional weights. -/
def classify (p : Fin n → ℚ) (found : List (Fin n) × List (Fin n)) (i : Fin n) :
    List (Fin n) × List (Fin n) :=
  if p i < 1 then (found.1, i :: found.2) else (i :: found.1, found.2)

/-- One turn of `while (!high.empty() && !low.empty())`. -/
def pairUp (s : Work n) : Except Failure (Work n ⊕ Work n) :=
  match s.high, s.low with
  | h :: high, l :: low =>
    if s.pr h < 1 then .error .checkFailed
    else
      let remaining := s.pr h - (1 - s.pr l)
      let s := { s with alt := Function.update s.alt l h, pr := Function.update s.pr h remaining }
      if remaining < 1 then .ok (.inl { s with high := high, low := h :: low })
      else .ok (.inl { s with high := h :: high, low := low })
  | _, _ => .ok (.inr s)

/-- `set_prob(idx, 1.0)` and `set_alt(idx, idx)`. -/
def keepAll (data : Fin n → ℚ × ℤ) (idx : Fin n) : Fin n → ℚ × ℤ :=
  Function.update data idx (1, idx)

/-- The end of the constructor: `pr` is transferred, and what is left on the stacks is kept. -/
def Work.transfer (s : Work n) : Fin n → ℚ × ℤ :=
  let data := fun i => (s.pr i, s.alt i)
  let data := s.high.reverse.foldl keepAll data
  s.low.reverse.foldl keepAll data

/-- The constructor, from the number `n` of weights it sees on. -/
def build (turns : ℕ) (weights : List ℚ) (n : ℕ) : Except Failure DistributionSampler :=
  let sum := ∑ i : Fin n, weights.getD i 0
  if 0 < n ∧ sum = 0 then .error .divisionByZero
  else do
    let p : Fin n → ℚ := fun i => weights.getD i 0 * n / sum
    let (high, low) := (List.finRange n).foldl (classify p) ([], [])
    let s ← loop .stillRunning pairUp turns ⟨p, fun _ => -1, high, low⟩
    return ⟨n, s.transfer⟩

/-- `DistributionSampler(weights)`, the pairing loop taking at most `turns` turns. -/
def new (turns : ℕ) (weights : List ℚ) : Except Failure DistributionSampler :=
  if weights = [] then .error .checkFailed
  else if int32 weights.length < 0 then .error .badArrayLength
  else build turns weights (int32 weights.length).toNat

/-- `prob`. -/
def prob (s : DistributionSampler) (i : Fin s.num) : ℚ := (s.data i).1

/-- `alt`. -/
def alt (s : DistributionSampler) (i : Fin s.num) : ℤ := (s.data i).2

/-- `Sample`, for the two random numbers it draws. -/
def sample (s : DistributionSampler) (r : ℚ) (idx : Fin s.num) : Except Failure ℤ :=
  if r < s.prob idx then .ok idx
  else if s.alt idx = -1 then .error .checkFailed
  else .ok (s.alt idx)

/-! ### What it is for -/

/-- A row chosen at random gives each index as often as its weight says, and it can be given. -/
structure Exact (weights : List ℚ) (s : DistributionSampler) : Prop where
  num : s.num = weights.length
  law : ∀ i : Fin s.num,
    1 / (s.num : ℚ) * (s.prob i + ∑ j with s.alt j = i ∧ j ≠ i, (1 - s.prob j)) =
      weights.getD i 0 / weights.sum
  range : ∀ i, 0 ≤ s.prob i ∧ s.prob i ≤ 1
  valid : ∀ i, s.prob i < 1 → ∃ j : Fin s.num, s.alt i = j

/-- A sample is one of the indices. -/
theorem Exact.sample_ok {weights : List ℚ} {s : DistributionSampler} (h : Exact weights s) {r : ℚ}
    (hr : r < 1) (idx : Fin s.num) : ∃ j : Fin s.num, s.sample r idx = .ok (j : ℤ) := by
  rw [sample]
  by_cases hprob : r < s.prob idx
  · exact ⟨idx, if_pos hprob⟩
  · have hless : s.prob idx < 1 := lt_of_le_of_lt (not_lt.mp hprob) hr
    obtain ⟨j, hj⟩ := h.valid idx hless
    exact ⟨j, by rw [if_neg hprob, hj, if_neg (by omega)]⟩

/-! ### The tables on the way -/

/-- The alias table that the arrays and the stacks stand for. -/
structure Represents (s : Work n) (t : AliasTable (Fin n) ℚ) : Prop where
  prob : s.pr = t.prob
  closed : ∀ i h, t.alt i = some h → s.alt i = h
  opened : ∀ i, i ∈ s.high ++ s.low ↔ t.alt i = none
  nodup : (s.high ++ s.low).Nodup
  high : ∀ i ∈ s.high, 1 ≤ t.prob i
  low : ∀ i ∈ s.low, t.prob i < 1

/-- The arrays and stacks stand for a table of the weights `p`. -/
structure Holds (p : Fin n → ℚ) (s : Work n) (t : AliasTable (Fin n) ℚ) : Prop where
  represents : Represents s t
  share : ∀ i, t.share i = p i
  deficit : t.deficit = 0
  nonneg : ∀ i, 0 ≤ t.prob i
  closed : ∀ i h, t.alt i = some h → t.prob i < 1 ∧ h ≠ i

def Inv (p : Fin n → ℚ) (s : Work n) : Prop := ∃ t, Holds p s t

variable {p : Fin n → ℚ} {s : Work n} {t : AliasTable (Fin n) ℚ}

theorem classify_foldl (l : List (Fin n)) (high low : List (Fin n)) :
    l.foldl (classify p) (high, low) =
      ((l.filter fun i => 1 ≤ p i).reverse ++ high, (l.filter fun i => p i < 1).reverse ++ low) := by
  induction l generalizing high low with
  | nil => rfl
  | cons i l ih =>
    rw [List.foldl_cons, classify]
    by_cases hi : p i < 1
    · simp [hi, ih]
    · simp [hi, ih, not_lt.mp hi]

section Round

variable {h l : Fin n} {high low high' low' : List (Fin n)}

/-- The row that gives goes back on the stack it now belongs to. -/
theorem Holds.close (ht : Holds p s t) (hhigh : s.high = h :: high) (hlow : s.low = l :: low)
    (hback : (s.pr h - (1 - s.pr l) < 1 ∧ high' = high ∧ low' = h :: low) ∨
      (1 ≤ s.pr h - (1 - s.pr l) ∧ high' = h :: high ∧ low' = low)) :
    Holds p ⟨Function.update s.pr h (s.pr h - (1 - s.pr l)), Function.update s.alt l h, high', low'⟩
      (t.close l h) := by
  have hr := ht.represents
  have hnodup := hr.nodup
  rw [hhigh, hlow] at hnodup
  have hperm : (high' ++ low').Perm (h :: high ++ low) := by
    rcases hback with ⟨-, rfl, rfl⟩ | ⟨-, rfl, rfl⟩
    · exact List.perm_middle
    · exact List.Perm.refl _
  have hmiddle : (h :: high ++ l :: low).Perm (l :: (h :: high ++ low)) := List.perm_middle
  obtain ⟨hlnot, hrest⟩ := List.nodup_cons.mp (hmiddle.nodup_iff.mp hnodup)
  obtain ⟨hhnot, -⟩ := List.nodup_cons.mp hrest
  have hne : h ≠ l := fun heq => hlnot (heq ▸ List.mem_cons_self)
  have hl : t.alt l = none := (hr.opened l).mp (by rw [hlow]; simp)
  have hh : t.alt h = none := (hr.opened h).mp (by rw [hhigh]; simp)
  have hlless : t.prob l < 1 := hr.low l (by rw [hlow]; exact List.mem_cons_self)
  have hhfull : 1 ≤ t.prob h := hr.high h (by rw [hhigh]; exact List.mem_cons_self)
  have hother {i : Fin n} (hi : i ∈ high ++ low) : (t.close l h).prob i = t.prob i :=
    Function.update_of_ne (fun heq => hhnot (by rwa [heq] at hi)) _ _
  have hself : (t.close l h).prob h = s.pr h - (1 - s.pr l) := by
    rw [hr.prob]
    exact Function.update_self ..
  refine ⟨⟨?_, ?_, ?_, hperm.nodup_iff.mpr hrest, ?_, ?_⟩, ?_, ?_, ?_, ?_⟩
  · rw [hr.prob]
    rfl
  · intro i k hik
    change Function.update s.alt l (h : ℤ) i = k
    by_cases hil : i = l
    · subst hil
      rw [AliasTable.close_alt, Function.update_self] at hik
      rw [Function.update_self, Option.some.inj hik]
    · rw [AliasTable.close_alt, Function.update_of_ne hil] at hik
      rw [Function.update_of_ne hil]
      exact hr.closed i k hik
  · intro i
    rw [hperm.mem_iff]
    by_cases hil : i = l
    · subst hil
      exact iff_of_false hlnot (by simp [AliasTable.close_alt])
    · rw [AliasTable.close_alt, Function.update_of_ne hil, ← hr.opened, hhigh, hlow, hmiddle.mem_iff,
        List.mem_cons, or_iff_right hil]
  · intro i hi
    rcases hback with ⟨-, rfl, -⟩ | ⟨hfull, rfl, -⟩
    · rw [hother (List.mem_append_left _ hi)]
      exact hr.high i (by rw [hhigh]; exact List.mem_cons_of_mem _ hi)
    · rcases List.mem_cons.mp hi with rfl | hi
      · rwa [hself]
      · rw [hother (List.mem_append_left _ hi)]
        exact hr.high i (by rw [hhigh]; exact List.mem_cons_of_mem _ hi)
  · intro i hi
    rcases hback with ⟨hless, -, rfl⟩ | ⟨-, -, rfl⟩
    · rcases List.mem_cons.mp hi with rfl | hi
      · rwa [hself]
      · rw [hother (List.mem_append_right _ hi)]
        exact hr.low i (by rw [hlow]; exact List.mem_cons_of_mem _ hi)
    · rw [hother (List.mem_append_right _ hi)]
      exact hr.low i (by rw [hlow]; exact List.mem_cons_of_mem _ hi)
  · intro i
    rw [AliasTable.share_close hl hh hne, ht.share]
  · rw [AliasTable.deficit_close hl hh hne, ht.deficit]
  · intro i
    by_cases hih : i = h
    · subst hih
      rw [hself, hr.prob]
      have := ht.nonneg l
      linarith
    · rw [AliasTable.close_prob, Function.update_of_ne hih]
      exact ht.nonneg i
  · intro i k hik
    by_cases hil : i = l
    · subst hil
      rw [AliasTable.close_alt, Function.update_self] at hik
      obtain rfl := Option.some.inj hik
      rw [AliasTable.close_prob, Function.update_of_ne hne.symm]
      exact ⟨hlless, hne⟩
    · rw [AliasTable.close_alt, Function.update_of_ne hil] at hik
      have hih : i ≠ h := fun heq => by
        rw [heq, hh] at hik
        cases hik
      rw [AliasTable.close_prob, Function.update_of_ne hih]
      exact ht.closed i k hik

/-- **A round** closes a row and keeps the invariant; its check holds. -/
theorem pairUp_inv (hs : Inv p s) :
    (∃ s', pairUp s = .ok (.inl s') ∧ Inv p s' ∧
      s'.high.length + s'.low.length < s.high.length + s.low.length) ∨
    ∃ s', pairUp s = .ok (.inr s') ∧ Inv p s' ∧ (s'.high = [] ∨ s'.low = []) := by
  obtain ⟨t, ht⟩ := hs
  cases hhigh : s.high with
  | nil => exact .inr ⟨s, by simp [pairUp, hhigh], ⟨t, ht⟩, .inl hhigh⟩
  | cons h high =>
    cases hlow : s.low with
    | nil => exact .inr ⟨s, by simp [pairUp, hhigh, hlow], ⟨t, ht⟩, .inr hlow⟩
    | cons l low =>
      have hcheck : ¬s.pr h < 1 := by
        rw [ht.represents.prob]
        exact not_lt.mpr (ht.represents.high h (by rw [hhigh]; exact List.mem_cons_self))
      refine .inl ?_
      rw [pairUp]
      simp only [hhigh, hlow, if_neg hcheck]
      split_ifs with hless
      · exact ⟨_, rfl, ⟨_, ht.close hhigh hlow (.inl ⟨hless, rfl, rfl⟩)⟩, by
          simp only [List.length_cons]
          omega⟩
      · exact ⟨_, rfl, ⟨_, ht.close hhigh hlow (.inr ⟨not_lt.mp hless, rfl, rfl⟩)⟩, by
          simp only [List.length_cons]
          omega⟩

end Round

/-- Rows that are kept for themselves. -/
theorem keepAll_foldl (l : List (Fin n)) (data : Fin n → ℚ × ℤ) (i : Fin n) :
    l.foldl keepAll data i = if i ∈ l then (1, (i : ℤ)) else data i := by
  induction l generalizing data with
  | nil => simp
  | cons j l ih =>
    rw [List.foldl_cons, ih, keepAll]
    by_cases hi : i ∈ l
    · simp [hi]
    · by_cases hij : i = j
      · subst hij
        simp
      · simp [hi, hij]

theorem data_transfer (s : Work n) (i : Fin n) :
    s.transfer i = if i ∈ s.high ++ s.low then (1, (i : ℤ)) else (s.pr i, s.alt i) := by
  change s.low.reverse.foldl keepAll (s.high.reverse.foldl keepAll fun i => (s.pr i, s.alt i)) i = _
  rw [keepAll_foldl, keepAll_foldl]
  by_cases hlow : i ∈ s.low
  · simp [hlow]
  · by_cases hhigh : i ∈ s.high
    · simp [hhigh]
    · simp [hlow, hhigh]

/-- **The end**: the rows still open are full. -/
theorem Holds.prob_eq_one (h : Holds p s t) (hend : s.high = [] ∨ s.low = []) {i : Fin n}
    (hi : t.alt i = none) : t.prob i = 1 := by
  refine AliasTable.prob_eq_one_of_open h.deficit ?_ hi
  rcases hend with hhigh | hlow
  · refine .inr fun j hj => h.represents.low j ?_
    have hmem := (h.represents.opened j).mpr hj
    rwa [hhigh, List.nil_append] at hmem
  · refine .inl fun j hj => h.represents.high j ?_
    have hmem := (h.represents.opened j).mpr hj
    rwa [hlow, List.append_nil] at hmem

/-- The invariant at the start of the pairing. -/
theorem start_inv (hnonneg : ∀ i, 0 ≤ p i) (hsum : ∑ i, p i = n) {high low : List (Fin n)}
    (hstacks : (List.finRange n).foldl (classify p) ([], []) = (high, low)) :
    Inv p ⟨p, fun _ => -1, high, low⟩ := by
  rw [classify_foldl] at hstacks
  obtain ⟨rfl, rfl⟩ : (List.filter (fun i => 1 ≤ p i) (List.finRange n)).reverse = high ∧
      (List.filter (fun i => p i < 1) (List.finRange n)).reverse = low := by simpa using hstacks
  refine ⟨.start p, ⟨rfl, fun i h hi => (Option.some_ne_none h hi.symm).elim, fun i => ?_, ?_, ?_, ?_⟩,
    AliasTable.share_start p, ?_, hnonneg, fun i h hi => (Option.some_ne_none h hi.symm).elim⟩
  · refine iff_of_true ?_ rfl
    rcases lt_or_ge (p i) 1 with hi | hi
    · simp [hi]
    · simp [hi]
  · refine List.nodup_append'.mpr ⟨?_, ?_, ?_⟩
    · exact List.nodup_reverse.mpr ((List.nodup_finRange n).filter _)
    · exact List.nodup_reverse.mpr ((List.nodup_finRange n).filter _)
    · intro i hhigh hlow
      simp at hhigh hlow
      linarith
  · intro i hi
    simpa [AliasTable.start] using hi
  · intro i hi
    simpa [AliasTable.start] using hi
  · rw [AliasTable.deficit_start, hsum, Fintype.card_fin, sub_self]

/-- A row that is still open at the end is kept for itself, and one that is closed stays as it is. -/
theorem Holds.data_eq (h : Holds p s t) (hend : s.high = [] ∨ s.low = []) (i : Fin n) :
    (t.alt i = none ∧ s.transfer i = (t.prob i, (i : ℤ))) ∨
      ∃ k, t.alt i = some k ∧ s.transfer i = (t.prob i, (k : ℤ)) := by
  cases hi : t.alt i with
  | none =>
    refine .inl ⟨rfl, ?_⟩
    rw [data_transfer, if_pos ((h.represents.opened i).mpr hi), h.prob_eq_one hend hi]
  | some k =>
    refine .inr ⟨k, rfl, ?_⟩
    have hnot : i ∉ s.high ++ s.low := fun hmem => by
      rw [(h.represents.opened i).mp hmem] at hi
      cases hi
    rw [data_transfer, if_neg hnot, h.represents.prob, h.represents.closed i k hi]

theorem Holds.prob_transfer (h : Holds p s t) (hend : s.high = [] ∨ s.low = []) (i : Fin n) :
    (s.transfer i).1 = t.prob i := by
  rcases h.data_eq hend i with ⟨-, hdata⟩ | ⟨k, -, hdata⟩
  · exact congrArg Prod.fst hdata
  · exact congrArg Prod.fst hdata

/-- What the others leave to a row. -/
theorem Holds.leaves (h : Holds p s t) (hend : s.high = [] ∨ s.low = []) (i j : Fin n) :
    (if (s.transfer j).2 = (i : ℤ) ∧ j ≠ i then 1 - (s.transfer j).1 else 0) =
      if t.alt j = some i then 1 - t.prob j else 0 := by
  rw [h.prob_transfer hend]
  rcases h.data_eq hend j with ⟨hj, -⟩ | ⟨k, hk, hdata⟩
  · rw [h.prob_eq_one hend hj, sub_self, ite_self, ite_self]
  · have halt : (s.transfer j).2 = (k : ℤ) := congrArg Prod.snd hdata
    have hne := (h.closed j k hk).2
    refine if_congr ?_ rfl rfl
    rw [halt, hk, Option.some_inj, Fin.ext_iff, Int.natCast_inj]
    constructor
    · exact And.left
    · intro hki
      exact ⟨hki, fun hji => hne (Fin.ext (hki.trans (congrArg Fin.val hji).symm))⟩

/-- The rows share out what the weights say. -/
theorem Holds.law (h : Holds p s t) (hend : s.high = [] ∨ s.low = []) {weights : List ℚ}
    (hp : ∀ i : Fin n, p i = weights.getD i 0 * n / weights.sum) (i : Fin n) :
    1 / (n : ℚ) * ((s.transfer i).1 +
      ∑ j : Fin n with (s.transfer j).2 = (i : ℤ) ∧ j ≠ i, (1 - (s.transfer j).1)) =
      weights.getD i 0 / weights.sum := by
  have hpos : (n : ℚ) ≠ 0 := Nat.cast_ne_zero.mpr i.pos.ne'
  have hsum : ∑ j : Fin n with (s.transfer j).2 = (i : ℤ) ∧ j ≠ i, (1 - (s.transfer j).1) =
      ∑ j : Fin n, if t.alt j = some i then 1 - t.prob j else 0 := by
    rw [Finset.sum_filter]
    exact Finset.sum_congr rfl fun j _ => h.leaves hend i j
  calc 1 / (n : ℚ) * ((s.transfer i).1 + ∑ j : Fin n with (s.transfer j).2 = (i : ℤ) ∧ j ≠ i, (1 - (s.transfer j).1))
    _ = 1 / n * t.share i := by rw [hsum, h.prob_transfer hend, AliasTable.share]
    _ = 1 / n * (weights.getD i 0 * n / weights.sum) := by rw [h.share, hp]
    _ = weights.getD i 0 / weights.sum := by field_simp

/-- **The finished tables** are exact. -/
theorem Holds.exact (h : Holds p s t) (hend : s.high = [] ∨ s.low = []) {weights : List ℚ}
    (hn : n = weights.length) (hp : ∀ i : Fin n, p i = weights.getD i 0 * n / weights.sum) :
    Exact weights ⟨n, s.transfer⟩ where
  num := hn
  law := h.law hend hp
  range := fun i => by
    change 0 ≤ (s.transfer i).1 ∧ (s.transfer i).1 ≤ 1
    rw [h.prob_transfer hend i]
    refine ⟨h.nonneg i, ?_⟩
    rcases h.data_eq hend i with ⟨hi, -⟩ | ⟨k, hk, -⟩
    · exact (h.prob_eq_one hend hi).le
    · exact (h.closed i k hk).1.le
  valid := fun i hi => by
    change (s.transfer i).1 < 1 at hi
    rw [h.prob_transfer hend i] at hi
    rcases h.data_eq hend i with ⟨hopen, -⟩ | ⟨k, -, hdata⟩
    · exact absurd (h.prob_eq_one hend hopen) hi.ne
    · exact ⟨k, congrArg Prod.snd hdata⟩

/-! ### The constructor -/

/-- The pairing of the weights comes to an end within `n` rounds, with the tables exact. -/
theorem loop_pairUp (hnonneg : ∀ i, 0 ≤ p i) (hsum : ∑ i, p i = n) {high low : List (Fin n)}
    (hstacks : (List.finRange n).foldl (classify p) ([], []) = (high, low)) {turns : ℕ}
    (hturns : n < turns) :
    ∃ s, loop .stillRunning pairUp turns ⟨p, fun _ => -1, high, low⟩ = .ok s ∧
      Inv p s ∧ (s.high = [] ∨ s.low = []) := by
  have hinv := start_inv hnonneg hsum hstacks
  refine loop_total (Inv p) (fun s => Inv p s ∧ (s.high = [] ∨ s.low = []))
    (fun s => s.high.length + s.low.length) (fun s hs => pairUp_inv hs) hinv ?_
  obtain ⟨t, ht⟩ := hinv
  have hlen := ht.represents.nodup.length_le_card
  rw [List.length_append, Fintype.card_fin] at hlen
  exact lt_of_le_of_lt hlen hturns

theorem sum_fin_getD (weights : List ℚ) : ∑ i : Fin weights.length, weights.getD i 0 = weights.sum := by
  rw [← Fin.sum_univ_getElem]
  exact Finset.sum_congr rfl fun i _ => List.getD_eq_getElem _ _ i.isLt

/-- The constructor on weights that an `int` can count. -/
theorem build_exact {weights : List ℚ} (hnonneg : ∀ w ∈ weights, 0 ≤ w) (hpos : 0 < weights.sum)
    {turns : ℕ} (hturns : weights.length < turns) :
    ∃ s, build turns weights weights.length = .ok s ∧ Exact weights s := by
  have hweight (i : Fin weights.length) : 0 ≤ weights.getD i 0 := by
    rw [List.getD_eq_getElem _ _ i.isLt]
    exact hnonneg _ (List.getElem_mem _)
  have hp (i : Fin weights.length) : 0 ≤ weights.getD i 0 * weights.length / weights.sum :=
    div_nonneg (mul_nonneg (hweight i) (Nat.cast_nonneg _)) hpos.le
  have hsum : ∑ i : Fin weights.length, weights.getD i 0 * weights.length / weights.sum =
      (weights.length : ℚ) := by
    rw [← Finset.sum_div, ← Finset.sum_mul, sum_fin_getD, mul_div_cancel_left₀ _ hpos.ne']
  rw [build]
  simp only [sum_fin_getD]
  rw [if_neg fun h => hpos.ne' h.2]
  generalize hstacks : (List.finRange weights.length).foldl (classify _) ([], []) = stacks'
  obtain ⟨high, low⟩ := stacks'
  obtain ⟨s, hloop, ⟨t, ht⟩, hend⟩ := loop_pairUp hp hsum hstacks hturns
  refine ⟨⟨weights.length, s.transfer⟩, ?_, ht.exact hend rfl fun _ => rfl⟩
  simp only [hloop]
  rfl

/-- The constructor makes as many rows as it sees weights. -/
theorem num_build {turns : ℕ} {weights : List ℚ} {s : DistributionSampler}
    (h : build turns weights n = .ok s) : s.num = n := by
  rw [build] at h
  simp only [bind, Except.bind] at h
  split_ifs at h
  split at h
  · cases h
  · cases h
    rfl

/-- **The tables are exact**, and found in at most as many rounds as there are weights, unless the number of
weights does not fit an `int`. -/
theorem sampler_exact_iff {weights : List ℚ} (hne : weights ≠ []) (hnonneg : ∀ w ∈ weights, 0 ≤ w)
    (hpos : 0 < weights.sum) :
    (∀ turns > weights.length, ∃ s, new turns weights = .ok s ∧ Exact weights s) ↔
      weights.length < 2 ^ 31 := by
  constructor
  · intro h
    obtain ⟨s, hnew, hexact⟩ := h (weights.length + 1) (Nat.lt_succ_self _)
    have hint : int32 weights.length < 2 ^ 31 := Int.bmod_lt (by decide)
    rw [new, if_neg hne] at hnew
    split_ifs at hnew
    have hnum := num_build hnew
    have hlen := hexact.num
    omega
  · intro hlen turns hturns
    have hint : int32 weights.length = weights.length :=
      WeightedPicker.int32_eq (by omega) (by rw [WeightedPicker.maxInt32]; omega)
    obtain ⟨s, hbuild, hexact⟩ := build_exact hnonneg hpos hturns
    refine ⟨s, ?_, hexact⟩
    rw [new, if_neg hne, hint, if_neg (by omega), Int.toNat_natCast, hbuild]

/-- Three weights, of which two are low. -/
theorem sampler_exact_iff_three :
    (∀ turns > 3, ∃ s, new turns [8, 1, 3] = .ok s ∧ Exact [8, 1, 3] s) ↔ 3 < 2 ^ 31 :=
  @sampler_exact_iff [8, 1, 3] (List.cons_ne_nil _ _) (by simp) (by norm_num)

/-- For 2³¹ equal weights the number of weights is negative. -/
theorem sampler_not_exact :
    List.replicate (2 ^ 31) (1 : ℚ) ≠ [] ∧ (∀ w ∈ List.replicate (2 ^ 31) (1 : ℚ), 0 ≤ w) ∧
      0 < (List.replicate (2 ^ 31) (1 : ℚ)).sum ∧
      ¬ ∀ turns > (List.replicate (2 ^ 31) (1 : ℚ)).length, ∃ s,
        new turns (List.replicate (2 ^ 31) 1) = .ok s ∧ Exact (List.replicate (2 ^ 31) 1) s := by
  have hne : List.replicate (2 ^ 31) (1 : ℚ) ≠ [] := fun h => by
    rw [List.replicate_eq_nil_iff] at h
    cases h
  refine ⟨hne, fun w hw => ?_, ?_, fun h => ?_⟩
  · rw [List.eq_of_mem_replicate hw]
    exact zero_le_one
  · rw [List.sum_replicate]
    norm_num
  · obtain ⟨s, hnew, -⟩ := h _ (Nat.lt_succ_self _)
    have hneg : int32 (List.replicate (2 ^ 31) (1 : ℚ)).length < 0 := by
      rw [List.length_replicate]
      decide
    rw [new, if_neg hne, if_pos hneg] at hnew
    cases hnew

end DistributionSampler

end LearnNetlib.Random
