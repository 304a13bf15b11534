import Mathlib.Algebra.BigOperators.Group.List.Basic
import Mathlib.Algebra.Order.BigOperators.Group.List
import Mathlib.Algebra.Order.Group.Defs
import Mathlib.Data.List.GetD
import Mathlib.Tactic.Abel

/-!
# Trees of sums

Leaves, and above them level after level of sums of neighbours, up to the root.  The levels are in a list,
the leaves first.  Addition is an argument, since that of a machine is not always exact.

* `pairs`, `tower` — the level above a level, and all levels above it;
* `update`, **`update_tower`** — a change to a leaf is a change to each level above it;
* `tower_node`, `tower_root` — a node is the sum of its two children, and the root is the sum of all;
* `locate`, **`locate_tower`** — the descent from the root inverts the sums of the leaves' prefixes.
-/

namespace LearnNetlib.SumTree

variable {α : Type*}

/-! ### Levels -/

/-- The level above a level. -/
def pairs (add : α → α → α) : List α → List α
  | [] => []
  | [_] => []
  | a :: b :: l => add a b :: pairs add l

/-- A level, and `k` levels above it. -/
def tower (add : α → α → α) : ℕ → List α → List (List α)
  | 0, l => [l]
  | k + 1, l => l :: tower add k (pairs add l)

/-- A change to a leaf, and to the nodes above it. -/
def update (f : α → α) : ℕ → List (List α) → List (List α)
  | _, [] => []
  | i, l :: ls => l.modify i f :: update f (i / 2) ls

theorem length_pairs (add : α → α → α) (l : List α) : (pairs add l).length = l.length / 2 := by
  induction l using pairs.induct with
  | case1 => simp [pairs]
  | case2 a => simp [pairs]
  | case3 a b l ih =>
    simp only [pairs, List.length_cons, ih]
    omega

theorem length_tower (add : α → α → α) (k : ℕ) (l : List α) : (tower add k l).length = k + 1 := by
  induction k generalizing l with
  | zero => rfl
  | succ k ih => rw [tower, List.length_cons, ih]

section

variable [AddCommMonoid α]

theorem sum_take_succ {l : List α} {i : ℕ} (hi : i < l.length) :
    (l.take (i + 1)).sum = (l.take i).sum + l.getD i 0 := by
  rw [List.take_add_one, List.sum_append, List.getElem?_eq_getElem hi, Option.toList_some,
    List.sum_singleton, List.getD_eq_getElem _ _ hi]

theorem pairs_getD {l : List α} {i : ℕ} (hi : 2 * i + 1 < l.length) :
    (pairs (· + ·) l).getD i 0 = l.getD (2 * i) 0 + l.getD (2 * i + 1) 0 := by
  induction l using pairs.induct generalizing i with
  | case1 => exact absurd hi (Nat.not_lt_zero _)
  | case2 a => simp at hi
  | case3 a b l ih =>
    cases i with
    | zero => rfl
    | succ i =>
      simp only [List.length_cons] at hi
      exact ih (i := i) (by omega)

/-- A prefix of a level, and what is below it. -/
theorem sum_take_pairs {l : List α} {i : ℕ} (hi : 2 * i ≤ l.length) :
    ((pairs (· + ·) l).take i).sum = (l.take (2 * i)).sum := by
  induction l using pairs.induct generalizing i with
  | case1 => simp [pairs]
  | case2 a =>
    rw [List.length_singleton] at hi
    obtain rfl : i = 0 := by omega
    rfl
  | case3 a b l ih =>
    cases i with
    | zero => rfl
    | succ i =>
      simp only [List.length_cons] at hi
      have hrest := ih (i := i) (by omega)
      rw [pairs, List.take_succ_cons, List.sum_cons, hrest, add_assoc]
      rfl

theorem sum_pairs {l : List α} (hl : l.length % 2 = 0) : (pairs (· + ·) l).sum = l.sum := by
  have htake := sum_take_pairs (l := l) (i := l.length / 2) (by omega)
  have hall : 2 * (l.length / 2) = l.length := by omega
  rw [hall, List.take_length, List.take_of_length_le (by rw [length_pairs])] at htake
  exact htake

theorem pairs_modify (d : α) (l : List α) (i : ℕ) :
    pairs (· + ·) (l.modify i (· + d)) = (pairs (· + ·) l).modify (i / 2) (· + d) := by
  induction l using pairs.induct generalizing i with
  | case1 => simp [pairs]
  | case2 a =>
    cases i with
    | zero => rfl
    | succ i => simp [pairs]
  | case3 a b l ih =>
    match i with
    | 0 => simp only [List.modify_zero_cons, pairs, Nat.zero_div, add_right_comm]
    | 1 => simp [pairs, add_assoc]
    | i + 2 =>
      have hhalf : (i + 2) / 2 = i / 2 + 1 := by omega
      simp only [List.modify_succ_cons, pairs, hhalf, ih i]

/-- Every node above the leaves is the sum of its two children. -/
theorem tower_node {k j i : ℕ} (hj : j < k) {l : List α} (hl : l.length = 2 ^ k)
    (hi : i < 2 ^ (k - (j + 1))) :
    ((tower (· + ·) k l).getD (j + 1) []).getD i 0
      = ((tower (· + ·) k l).getD j []).getD (2 * i) 0
        + ((tower (· + ·) k l).getD j []).getD (2 * i + 1) 0 := by
  induction k generalizing l j with
  | zero => omega
  | succ k ih =>
    have hhalf : (pairs (· + ·) l).length = 2 ^ k := by
      rw [length_pairs, hl, Nat.pow_succ]
      omega
    cases j with
    | zero =>
      have hnode : 2 * i + 1 < l.length := by
        rw [hl, Nat.pow_succ]
        simp only [Nat.zero_add, Nat.add_sub_cancel] at hi
        omega
      have hbase : (tower (· + ·) (k + 1) l).getD 1 [] = pairs (· + ·) l := by
        cases k <;> rfl
      rw [hbase]
      exact pairs_getD hnode
    | succ j =>
      have hsub : k + 1 - (j + 1 + 1) = k - (j + 1) := by omega
      exact ih (by omega) hhalf (hsub ▸ hi)

/-- The root is the sum of the leaves. -/
theorem tower_root {k : ℕ} {l : List α} (hl : l.length = 2 ^ k) :
    (tower (· + ·) k l).getD k [] = [l.sum] := by
  induction k generalizing l with
  | zero =>
    obtain ⟨a, rfl⟩ := List.length_eq_one_iff.mp hl
    simp [tower]
  | succ k ih =>
    have hhalf : (pairs (· + ·) l).length = 2 ^ k := by
      rw [length_pairs, hl, Nat.pow_succ]
      omega
    have hsum : (pairs (· + ·) l).sum = l.sum := sum_pairs (by rw [hl, Nat.pow_succ]; omega)
    rw [← hsum]
    exact ih hhalf

end

/-! ### Machine addition -/

section

variable [AddCommGroup α] [LinearOrder α] [IsOrderedAddMonoid α]

/-- Weights and a bound on all sums of them. -/
structure Bounded (bound : α) (l : List α) : Prop where
  nonneg : ∀ a ∈ l, 0 ≤ a
  sum_le : l.sum ≤ bound

variable {bound : α} {add : α → α → α} (hadd : ∀ a b, 0 ≤ a → 0 ≤ b → a + b ≤ bound → add a b = a + b)

theorem Bounded.tail {a : α} {l : List α} (h : Bounded bound (a :: l)) : Bounded bound l := by
  obtain ⟨ha, hl⟩ := List.forall_mem_cons.mp h.nonneg
  refine ⟨hl, le_trans ?_ h.sum_le⟩
  rw [List.sum_cons]
  exact le_add_of_nonneg_left ha

include hadd in
theorem pairs_congr {l : List α} (hl : Bounded bound l) : pairs add l = pairs (· + ·) l := by
  induction l using pairs.induct with
  | case1 => rfl
  | case2 a => rfl
  | case3 a b l ih =>
    have hb := hl.nonneg b (by simp)
    have hsum : a + b ≤ bound := by
      refine le_trans ?_ hl.sum_le
      rw [List.sum_cons, List.sum_cons, ← add_assoc]
      exact le_add_of_nonneg_right (List.sum_nonneg fun x hx => hl.tail.tail.nonneg x hx)
    rw [pairs, pairs, hadd a b (hl.nonneg a (by simp)) hb hsum, ih hl.tail.tail]

theorem Bounded.pairs {l : List α} (hl : Bounded bound l) (heven : l.length % 2 = 0) :
    Bounded bound (pairs (· + ·) l) := by
  refine ⟨fun x hx => ?_, (sum_pairs heven).trans_le hl.sum_le⟩
  clear heven
  induction l using pairs.induct with
  | case1 => exact absurd hx List.not_mem_nil
  | case2 a => exact absurd hx List.not_mem_nil
  | case3 a b l ih =>
    rcases List.mem_cons.mp hx with rfl | hx
    · exact add_nonneg (hl.nonneg a (by simp)) (hl.nonneg b (by simp))
    · exact ih hl.tail.tail hx

include hadd in
/-- A machine whose addition is exact up to the bound builds the same levels. -/
theorem tower_congr {k : ℕ} {l : List α} (hl : Bounded bound l) (hlen : l.length = 2 ^ k) :
    tower add k l = tower (· + ·) k l := by
  induction k generalizing l with
  | zero => rfl
  | succ k ih =>
    have heven : l.length % 2 = 0 := by
      rw [hlen, Nat.pow_succ]
      omega
    have hhalf : (SumTree.pairs (· + ·) l).length = 2 ^ k := by
      rw [length_pairs, hlen, Nat.pow_succ]
      omega
    rw [tower, tower, pairs_congr hadd hl, ih (hl.pairs heven) hhalf]

theorem Bounded.le {l : List α} (hl : Bounded bound l) {a : α} (ha : a ∈ l) : a ≤ bound :=
  (List.single_le_sum hl.nonneg a ha).trans hl.sum_le

/-- A node that stays within the bounds. -/
theorem modify_congr {f : α → α} {d : α}
    (hf : ∀ x, 0 ≤ x → x ≤ bound → 0 ≤ x + d → x + d ≤ bound → f x = x + d) {l : List α} {i : ℕ}
    (hl : Bounded bound l) (hl' : Bounded bound (l.modify i (· + d))) :
    l.modify i f = l.modify i (· + d) := by
  rcases Nat.lt_or_ge i l.length with hi | hi
  · have hmem : l[i] + d ∈ l.modify i (· + d) := by
      have hlen : i < (l.modify i (· + d)).length := by rwa [List.length_modify]
      have hget : (l.modify i (· + d))[i] = l[i] + d := by
        rw [List.getElem_modify, if_pos rfl]
      rw [← hget]
      exact List.getElem_mem hlen
    have hx : l[i] ∈ l := List.getElem_mem hi
    have hfx := hf l[i] (hl.nonneg _ hx) (hl.le hx) (hl'.nonneg _ hmem) (hl'.le hmem)
    refine List.ext_getElem (by rw [List.length_modify, List.length_modify]) fun j hj hj' => ?_
    rw [List.getElem_modify, List.getElem_modify]
    by_cases hij : i = j
    · subst hij
      rw [if_pos rfl, if_pos rfl, hfx]
    · rw [if_neg hij, if_neg hij]
  · rw [List.modify_eq_self hi, List.modify_eq_self hi]

/-- **A change to a leaf** is carried up to the root by a machine that is exact up to the bound. -/
theorem update_tower {f : α → α} {d : α}
    (hf : ∀ x, 0 ≤ x → x ≤ bound → 0 ≤ x + d → x + d ≤ bound → f x = x + d) {k i : ℕ} {l : List α}
    (hlen : l.length = 2 ^ k) (hl : Bounded bound l) (hl' : Bounded bound (l.modify i (· + d))) :
    update f i (tower (· + ·) k l) = tower (· + ·) k (l.modify i (· + d)) := by
  induction k generalizing i l with
  | zero => rw [tower, update, update, modify_congr hf hl hl', tower]
  | succ k ih =>
    have heven : l.length % 2 = 0 := by
      rw [hlen, Nat.pow_succ]
      omega
    have hhalf : (SumTree.pairs (· + ·) l).length = 2 ^ k := by
      rw [length_pairs, hlen, Nat.pow_succ]
      omega
    have hup' : Bounded bound ((SumTree.pairs (· + ·) l).modify (i / 2) (· + d)) := by
      rw [← pairs_modify]
      exact hl'.pairs (by rwa [List.length_modify])
    rw [tower, update, tower, modify_congr hf hl hl', ih hhalf (hl.pairs heven) hup', pairs_modify]

/-! ### The descent -/

/-- From the root down to a leaf: at each node to the left while the position is below what is there, to
the right with the rest of it otherwise. -/
def locate (sub : α → α → α) (position : α) : List (List α) → ℕ × α
  | [] => (0, position)
  | [_] => (0, position)
  | l :: ls =>
    let (i, position) := locate sub position ls
    let left := l.getD (2 * i) 0
    if position < left then (2 * i, position) else (2 * i + 1, sub position left)

/-- A place in a list: an index, and how far into its weight one is. -/
structure At (l : List α) (w : α) (r : ℕ × α) : Prop where
  lt : r.1 < l.length
  sum : (l.take r.1).sum + r.2 = w
  nonneg : 0 ≤ r.2
  inside : r.2 < l.getD r.1 0

/-- Prefixes of weights. -/
theorem sum_take_mono {l : List α} (hl : ∀ a ∈ l, 0 ≤ a) {i j : ℕ} (hij : i ≤ j) :
    (l.take i).sum ≤ (l.take j).sum := by
  have hsplit : l.take j = l.take i ++ (l.take j).drop i := by
    conv_lhs => rw [← List.take_append_drop i (l.take j)]
    rw [List.take_take, min_eq_left hij]
  rw [hsplit, List.sum_append]
  exact le_add_of_nonneg_right (List.sum_nonneg fun x hx =>
    hl x (List.mem_of_mem_take (List.mem_of_mem_drop hx)))

theorem At.le {l : List α} {w : α} {r : ℕ × α} (h : At l w r) : (l.take r.1).sum ≤ w :=
  h.sum ▸ le_add_of_nonneg_right h.nonneg

theorem At.lt_succ {l : List α} {w : α} {r : ℕ × α} (h : At l w r) :
    w < (l.take (r.1 + 1)).sum := by
  rw [sum_take_succ h.lt, ← h.sum]
  exact add_lt_add_right h.inside _

/-- There is one place for a position. -/
theorem unique_index {l : List α} (hl : ∀ a ∈ l, 0 ≤ a) {w : α} {i j : ℕ}
    (hi : (l.take i).sum ≤ w ∧ w < (l.take (i + 1)).sum)
    (hj : (l.take j).sum ≤ w ∧ w < (l.take (j + 1)).sum) : i = j := by
  rcases lt_trichotomy i j with h | h | h
  · exact absurd (hi.2.trans_le (sum_take_mono hl h)) (not_lt.mpr hj.1)
  · exact h
  · exact absurd (hj.2.trans_le (sum_take_mono hl h)) (not_lt.mpr hi.1)

/-- **The descent** finds the leaf a position is in. -/
theorem locate_tower {sub : α → α → α} (hsub : ∀ a b, 0 ≤ b → b ≤ a → a ≤ bound → sub a b = a - b)
    {k : ℕ} {l : List α} (hl : Bounded bound l) (hlen : l.length = 2 ^ k) {w : α} (hw : 0 ≤ w)
    (hlt : w < l.sum) : At l w (locate sub w (tower (· + ·) k l)) := by
  induction k generalizing l with
  | zero =>
    obtain ⟨a, rfl⟩ := List.length_eq_one_iff.mp hlen
    rw [List.sum_singleton] at hlt
    exact ⟨Nat.one_pos, zero_add w, hw, hlt⟩
  | succ k ih =>
    have heven : l.length % 2 = 0 := by
      rw [hlen, Nat.pow_succ]
      omega
    have hhalf : (SumTree.pairs (· + ·) l).length = 2 ^ k := by
      rw [length_pairs, hlen, Nat.pow_succ]
      omega
    have hup := ih (hl.pairs heven) hhalf ((sum_pairs heven).symm ▸ hlt)
    obtain ⟨up, hup_def⟩ : ∃ up, up = locate sub w (tower (· + ·) k (SumTree.pairs (· + ·) l)) :=
      ⟨_, rfl⟩
    have hlocate : locate sub w (tower (· + ·) (k + 1) l)
        = if up.2 < l.getD (2 * up.1) 0 then (2 * up.1, up.2)
          else (2 * up.1 + 1, sub up.2 (l.getD (2 * up.1) 0)) := by
      rw [hup_def, tower]
      cases k <;> rfl
    rw [← hup_def] at hup
    obtain ⟨hi, hsum, hnonneg, hinside⟩ := hup
    have hchildren : 2 * up.1 + 1 < l.length := by omega
    rw [sum_take_pairs (by omega)] at hsum
    rw [pairs_getD hchildren] at hinside
    rw [hlocate]
    split_ifs with hleft
    · exact ⟨by dsimp only; omega, hsum, hnonneg, hleft⟩
    · have hle : l.getD (2 * up.1) 0 ≤ up.2 := not_lt.mp hleft
      have hpos : 0 ≤ l.getD (2 * up.1) 0 := by
        rw [List.getD_eq_getElem _ _ (by omega)]
        exact hl.nonneg _ (List.getElem_mem _)
      have hbound : up.2 ≤ bound := by
        refine le_trans ?_ (hlt.le.trans hl.sum_le)
        rw [← hsum]
        exact le_add_of_nonneg_left (List.sum_nonneg fun x hx => hl.nonneg x (List.mem_of_mem_take hx))
      rw [hsub _ _ hpos hle hbound]
      refine ⟨hchildren, ?_, sub_nonneg.mpr hle, ?_⟩
      · dsimp only
        rw [sum_take_succ (by omega), ← hsum]
        abel
      · exact sub_lt_iff_lt_add'.mpr hinside

end

end LearnNetlib.SumTree
