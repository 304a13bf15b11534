import LearnNetlib.Foundations.EditDistance

/-!
# The edit distance of two slices (`gtl/edit_distance.h`)

* `fillRow`, `rows`, `levenshteinDistance` — the two-row program, with the rows named as the code
  names them: `scratch0` holds the distances of the empty prefix and is called `previous`, and the
  names are exchanged **before** the first row is computed, so that the first `previous` is the
  zeroed `scratch1`;
* `levenshteinDistance_eq` — what that program computes: the least distance from the longer sequence
  to a **suffix** of the shorter one;
* `levenshteinDistance_correct_iff` — it is the Levenshtein distance exactly when no suffix of the
  shorter sequence is closer to the longer one than the whole of it.
-/

namespace LearnNetlib.Gtl

open EditDistance

/-! ### The program -/

section Program

variable {T : Type*}

/-- The inner loop: `current[j + 1]` from `current[j]`, `previous[j + 1]` and `previous[j]`, for the
elements of `t` from index `j` on. -/
def fillRow (cmp : T → T → Bool) (a : T) :
    List T → ℕ → List ℕ → List ℕ → List ℕ
  | [], _, _, current => current
  | b :: t, j, previous, current =>
    let cost := if cmp a b then 0 else 1
    fillRow cmp a t (j + 1) previous
      (current.set (j + 1)
        (min (current.getD j 0 + 1)
          (min (previous.getD (j + 1) 0 + 1) (previous.getD j 0 + cost))))

/-- The outer loop, for the elements of `s` from index `i` on: the rows change their names, then
`current` is filled. The row called `current` after the last turn is returned. -/
def rows (cmp : T → T → Bool) (t : List T) : List T → ℕ → List ℕ → List ℕ → List ℕ
  | [], _, _, current => current
  | a :: s, i, previous, current =>
    let (previous, current) := (current, previous)
    rows cmp t s (i + 1) previous (fillRow cmp a t 0 previous (current.set 0 (i + 1)))

/-- `LevenshteinDistance`. The scratch vectors are built by `InlinedVector(size_t n)`, which zeroes
them; then `std::iota` fills the first. -/
def levenshteinDistance [DecidableEq T] (s t : List T) (cmp : T → T → Bool) : ℕ :=
  if s.length = 0 then t.length
  else if t.length = 0 then s.length
  else if s = t then 0
  else if s.length < t.length then levenshteinDistance t s cmp
  else
    let scratch0 := List.range (t.length + 1)
    let scratch1 := List.replicate (t.length + 1) 0
    (rows cmp t s 0 scratch0 scratch1).getD t.length 0
termination_by t.length - s.length

end Program

/-! ### What a row holds -/

section Rows

variable {T : Type*}

/-- The row holds `d` of every prefix of `t`. -/
def RowHolds (t : List T) (d : List T → ℕ) (row : List ℕ) : Prop :=
  row.length = t.length + 1 ∧ ∀ j, j ≤ t.length → row.getD j 0 = d (t.take j)

theorem rowHolds_replicate (t : List T) : RowHolds t (fun _ => 0) (List.replicate (t.length + 1) 0) := by
  refine ⟨List.length_replicate, ?_⟩
  intro j hj
  rw [List.getD_eq_getElem?_getD, List.getElem?_replicate, if_pos (by omega), Option.getD_some]

theorem getD_set_self {row : List ℕ} {j : ℕ} (h : j < row.length) (x : ℕ) :
    (row.set j x).getD j 0 = x := by
  rw [List.getD_eq_getElem?_getD, List.getElem?_set_self h, Option.getD_some]

theorem getD_set_ne {row : List ℕ} {j k : ℕ} (h : j ≠ k) (x : ℕ) :
    (row.set j x).getD k 0 = row.getD k 0 := by
  rw [List.getD_eq_getElem?_getD, List.getElem?_set_ne h, ← List.getD_eq_getElem?_getD]

variable [DecidableEq T] {cmp : T → T → Bool}

/-- The inner loop fills the row of `s ++ [a]` from the row of `s`: the cells up to `pre.length` are
right, and every turn adds one by the recursion at the last elements. -/
theorem fillRow_holds (hcmp : ∀ a b, cmp a b = true ↔ a = b) (s : List T) (a : T) (rest : List T) :
    ∀ (pre : List T) (previous current : List ℕ),
      RowHolds (pre ++ rest) (suffixDistance s) previous →
      current.length = (pre ++ rest).length + 1 →
      (∀ j, j ≤ pre.length →
        current.getD j 0 = suffixDistance (s ++ [a]) ((pre ++ rest).take j)) →
      RowHolds (pre ++ rest) (suffixDistance (s ++ [a]))
        (fillRow cmp a rest pre.length previous current) := by
  induction rest with
  | nil =>
    intro pre previous current _ hlen hcur
    rw [fillRow]
    refine ⟨hlen, ?_⟩
    intro j hj
    exact hcur j (by simpa using hj)
  | cons b rest ih =>
    intro pre previous current hprev hlen hcur
    rw [fillRow]
    have happ : pre ++ b :: rest = (pre ++ [b]) ++ rest := by simp
    have hpre : (pre ++ b :: rest).take pre.length = pre := List.take_left
    have hnext : (pre ++ b :: rest).take (pre.length + 1) = pre ++ [b] := by
      rw [happ]
      exact List.take_left' (by simp)
    have hsize : (pre ++ b :: rest).length = pre.length + 1 + rest.length := by
      simp only [List.length_append, List.length_cons]
      omega
    have hcost : (if cmp a b = true then 0 else 1) = cost a b := by
      by_cases hab : a = b
      · rw [if_pos ((hcmp a b).mpr hab), cost, if_pos hab]
      · rw [if_neg (fun h => hab ((hcmp a b).mp h)), cost, if_neg hab]
    have hcell : min (current.getD pre.length 0 + 1) (min (previous.getD (pre.length + 1) 0 + 1)
        (previous.getD pre.length 0 + (if cmp a b = true then 0 else 1))) =
          suffixDistance (s ++ [a]) (pre ++ [b]) := by
      have hleft := hcur pre.length le_rfl
      have hup := hprev.2 (pre.length + 1) (by omega)
      have hdiag := hprev.2 pre.length (by omega)
      rw [hpre] at hleft hdiag
      rw [hnext] at hup
      rw [hleft, hup, hdiag, hcost, suffixDistance_concat]
      omega
    rw [hcell]
    rw [happ] at hprev hcur hlen hsize hnext ⊢
    have hfill := ih (pre ++ [b]) previous
      (current.set (pre.length + 1) (suffixDistance (s ++ [a]) (pre ++ [b]))) hprev
      (by rw [List.length_set]; exact hlen)
      (by
        intro j hj
        rw [List.length_append, List.length_singleton] at hj
        rcases Nat.lt_or_ge pre.length j with hlt | hle
        · obtain rfl : j = pre.length + 1 := by omega
          rw [getD_set_self (by omega), hnext]
        · rw [getD_set_ne (by omega)]
          exact hcur j hle)
    rw [List.length_append, List.length_singleton] at hfill
    exact hfill

/-- The outer loop: after the turns for `pre`, the row last filled holds the distances of `pre`. -/
theorem rows_holds (hcmp : ∀ a b, cmp a b = true ↔ a = b) (t rest : List T) :
    ∀ (pre : List T) (previous current : List ℕ),
      previous.length = t.length + 1 → RowHolds t (suffixDistance pre) current →
      RowHolds t (suffixDistance (pre ++ rest)) (rows cmp t rest pre.length previous current) := by
  induction rest with
  | nil =>
    intro pre previous current _ hcur
    rw [rows, List.append_nil]
    exact hcur
  | cons a rest ih =>
    intro pre previous current hlen hcur
    have hrow := fillRow_holds hcmp pre a t [] current (previous.set 0 (pre.length + 1)) hcur
      (by rw [List.length_set]; exact hlen)
      (by
        intro j hj
        obtain rfl : j = 0 := Nat.le_zero.mp hj
        rw [getD_set_self (by omega), List.take_zero, suffixDistance_nil_right, List.length_append,
          List.length_singleton])
    have hnext := ih (pre ++ [a]) current _ hcur.1 hrow
    rw [List.length_append, List.length_singleton, List.append_assoc, List.singleton_append] at hnext
    exact hnext

/-! ### What the program computes -/

/-- The zeroed row is the row of the empty sequence for the distance to a suffix. -/
theorem rows_eq (hcmp : ∀ a b, cmp a b = true ↔ a = b) (s t : List T) :
    (rows cmp t s 0 (List.range (t.length + 1)) (List.replicate (t.length + 1) 0)).getD t.length 0 =
      suffixDistance s t := by
  have hzero : suffixDistance ([] : List T) = fun _ => 0 := funext suffixDistance_nil_left
  have h := rows_holds hcmp t s [] (List.range (t.length + 1)) (List.replicate (t.length + 1) 0)
    (by rw [List.length_range]) (by rw [hzero]; exact rowHolds_replicate t)
  have hlast := h.2 t.length le_rfl
  rw [List.take_length] at hlast
  exact hlast

/-- **The least distance from the longer sequence to a suffix of the shorter one.** -/
theorem levenshteinDistance_eq (hcmp : ∀ a b, cmp a b = true ↔ a = b) (s t : List T) :
    levenshteinDistance s t cmp =
      if s.length < t.length then suffixDistance t s else suffixDistance s t := by
  have hself : ∀ w : List T, suffixDistance w w = 0 := by
    intro w
    have hle := suffixDistance_le (s := w) (List.suffix_refl w)
    rw [levenshtein_self] at hle
    omega
  -- the cases up to the exchange of the arguments, which happens once at most
  have hlong : ∀ s t : List T, t.length ≤ s.length →
      levenshteinDistance s t cmp = suffixDistance s t := by
    intro s t hle
    rw [levenshteinDistance]
    by_cases hs : s.length = 0
    · have ht : t.length = 0 := by omega
      obtain rfl := List.length_eq_zero_iff.mp hs
      rw [if_pos hs, ht, suffixDistance_nil_left]
    · rw [if_neg hs]
      by_cases ht : t.length = 0
      · obtain rfl := List.length_eq_zero_iff.mp ht
        rw [if_pos ht, suffixDistance_nil_right]
      · rw [if_neg ht]
        by_cases heq : s = t
        · rw [if_pos heq, heq, hself]
        · rw [if_neg heq, if_neg (by omega)]
          exact rows_eq hcmp s t
  by_cases hlt : s.length < t.length
  · rw [if_pos hlt, levenshteinDistance]
    by_cases hs : s.length = 0
    · obtain rfl := List.length_eq_zero_iff.mp hs
      rw [if_pos hs, suffixDistance_nil_right]
    · have hne : s ≠ t := fun h => by rw [h] at hlt; omega
      rw [if_neg hs, if_neg (by omega), if_neg hne, if_pos hlt]
      exact hlong t s (by omega)
  · rw [if_neg hlt]
    exact hlong s t (by omega)

/-- No suffix of `t` is closer to `s` than `t` itself. -/
def NoCloserSuffix (s t : List T) : Prop :=
  ∀ u, u <:+ t → levenshtein s t ≤ levenshtein s u

/-- The longer sequence has no suffix of the shorter one closer than the whole of it; of two
sequences of one length, neither has. -/
def NoShortcut (s t : List T) : Prop :=
  (t.length ≤ s.length → NoCloserSuffix s t) ∧ (s.length ≤ t.length → NoCloserSuffix t s)

/-- A suffix is no closer than the difference in lengths allows. -/
theorem length_le_suffixDistance (s t : List T) : s.length ≤ t.length + suffixDistance s t := by
  obtain ⟨u, hu, heq⟩ := exists_suffixDistance_eq s t
  have hlen := length_le_add_levenshtein s u
  have hle := hu.length_le
  omega

/-- Whatever the sequences, the result is **at least the difference in lengths**. -/
theorem length_le_levenshteinDistance (hcmp : ∀ a b, cmp a b = true ↔ a = b) (s t : List T) :
    s.length ≤ t.length + levenshteinDistance s t cmp ∧
      t.length ≤ s.length + levenshteinDistance s t cmp := by
  rw [levenshteinDistance_eq hcmp]
  by_cases hlt : s.length < t.length
  · rw [if_pos hlt]
    exact ⟨by omega, length_le_suffixDistance t s⟩
  · rw [if_neg hlt]
    exact ⟨length_le_suffixDistance s t, by omega⟩

/-- The two orders of the arguments give the distance to a suffix of the shorter one; of two
sequences of one length, each gives its own. -/
theorem levenshteinDistance_both_eq_iff (hcmp : ∀ a b, cmp a b = true ↔ a = b) (s t : List T) :
    (levenshteinDistance s t cmp = levenshtein s t ∧
      levenshteinDistance t s cmp = levenshtein s t) ↔ NoShortcut s t := by
  rw [levenshteinDistance_eq hcmp, levenshteinDistance_eq hcmp, NoShortcut, NoCloserSuffix,
    NoCloserSuffix, ← suffixDistance_eq_iff, ← suffixDistance_eq_iff, levenshtein_comm t s]
  rcases Nat.lt_trichotomy s.length t.length with hlt | heq | hgt
  · rw [if_pos hlt, if_neg (by omega)]
    constructor
    · intro h
      exact ⟨fun hle => absurd hle (by omega), fun _ => h.1⟩
    · intro h
      exact ⟨h.2 (by omega), h.2 (by omega)⟩
  · rw [if_neg (by omega), if_neg (by omega)]
    constructor
    · intro h
      exact ⟨fun _ => h.1, fun _ => h.2⟩
    · intro h
      exact ⟨h.1 (by omega), h.2 (by omega)⟩
  · rw [if_neg (by omega), if_pos hgt]
    constructor
    · intro h
      exact ⟨fun _ => h.1, fun hle => absurd hle (by omega)⟩
    · intro h
      exact ⟨h.1 (by omega), h.1 (by omega)⟩

/-- **The Levenshtein distance**, symmetric and at least the difference in lengths, exactly when no
suffix of the shorter sequence is a shortcut. -/
theorem levenshteinDistance_correct_iff (hcmp : ∀ a b, cmp a b = true ↔ a = b) (s t : List T) :
    (levenshteinDistance s t cmp = levenshtein s t ∧
      IsLeast {n | Edits n s t} (levenshteinDistance s t cmp) ∧
      levenshteinDistance s t cmp = levenshteinDistance t s cmp ∧
      s.length ≤ t.length + levenshteinDistance s t cmp ∧
      t.length ≤ s.length + levenshteinDistance s t cmp) ↔ NoShortcut s t := by
  rw [← levenshteinDistance_both_eq_iff hcmp]
  constructor
  · intro h
    exact ⟨h.1, by rw [← h.2.2.1, h.1]⟩
  · intro h
    have hlen := length_le_levenshteinDistance hcmp s t
    have hleast := levenshtein_isLeast s t
    rw [← h.1] at hleast
    exact ⟨h.1, hleast, h.1.trans h.2.symm, hlen⟩

theorem levenshteinDistance_correct_iff_three :
    (levenshteinDistance [1, 2, 3] [1, 3] (· == ·) = levenshtein [1, 2, 3] [1, 3] ∧
      IsLeast {n | Edits n [1, 2, 3] [1, 3]} (levenshteinDistance [1, 2, 3] [1, 3] (· == ·)) ∧
      levenshteinDistance [1, 2, 3] [1, 3] (· == ·) =
        levenshteinDistance [1, 3] [1, 2, 3] (· == ·) ∧
      [1, 2, 3].length ≤ [1, 3].length + levenshteinDistance [1, 2, 3] [1, 3] (· == ·) ∧
      [1, 3].length ≤ [1, 2, 3].length + levenshteinDistance [1, 2, 3] [1, 3] (· == ·)) ↔
      NoShortcut [1, 2, 3] [1, 3] :=
  levenshteinDistance_correct_iff (fun _ _ => beq_iff_eq) [1, 2, 3] [1, 3]

/-- Two letters exchanged: two substitutions, but the program goes to the suffix `a` for one. -/
theorem levenshteinDistance_ab_ba :
    (∀ a b : Char, (a == b) = true ↔ a = b) ∧
      levenshteinDistance ['a', 'b'] ['b', 'a'] (· == ·) = 1 ∧
      levenshtein ['a', 'b'] ['b', 'a'] = 2 ∧
      ¬ IsLeast {n | Edits n ['a', 'b'] ['b', 'a']}
        (levenshteinDistance ['a', 'b'] ['b', 'a'] (· == ·)) := by
  have hcode : levenshteinDistance ['a', 'b'] ['b', 'a'] (· == ·) = 1 := by
    rw [levenshteinDistance]
    decide
  have hspec : levenshtein ['a', 'b'] ['b', 'a'] = 2 := by
    simp [levenshtein_cons_cons, cost]
  refine ⟨fun _ _ => beq_iff_eq, hcode, hspec, ?_⟩
  intro h
  have heq := h.unique (levenshtein_isLeast ['a', 'b'] ['b', 'a'])
  rw [hcode, hspec] at heq
  omega

end Rows

end LearnNetlib.Gtl
