import LearnNetlib.Foundations.Loops
import LearnNetlib.Foundations.Runs
import LearnNetlib.Foundations.SumTree
import Mathlib.Algebra.Order.Group.Int

/-!
# `random::WeightedPicker`

* `WeightedPicker.new`, `setWeight`, `resize`, `pickAt` and the others — the code of
  `base/random/weighted_picker.cc`;
* `Inv` — the tree is the tower of sums over the weights, followed by zeros; each operation keeps it, and
  does to the weights what `Op.apply` says;
* `Good` — what the picker is for;
* **`picker_good_iff`** — it is that after every sequence of operations, unless one of them asks for more
  than 2³⁰ elements.
-/

namespace LearnNetlib.Random

open LearnNetlib.Loops LearnNetlib.Runs LearnNetlib.SumTree

/-! ### The code -/

/-- What an `int32` holds of a number. -/
def int32 (x : ℤ) : ℤ := Int.bmod x (2 ^ 32)

def add32 (a b : ℤ) : ℤ := int32 (a + b)

def sub32 (a b : ℤ) : ℤ := int32 (a - b)

/-- `WeightedPicker`; `levels` is `level_` with the leaves first. -/
structure WeightedPicker where
  n : ℤ
  levels : List (List ℤ)
  deriving Repr, DecidableEq

namespace WeightedPicker

/-- How an operation may fail: a `CHECK` or an `assert` does, or an `int` is shifted too far. -/
inductive Failure
  | checkFailed
  | assertFailed
  | shiftOverflow
  | stillRunning
  deriving Repr, DecidableEq

/-- `LevelSize`. -/
def levelSize (level : ℕ) : Except Failure ℤ :=
  if level < 31 then .ok (2 ^ level) else .error .shiftOverflow

/-- One turn of the search for the number of levels. -/
def findLevels (n : ℤ) (numLevels : ℕ) : Except Failure (ℕ ⊕ ℕ) := do
  let size ← levelSize (numLevels - 1)
  if size < n then return .inl (numLevels + 1) else return .inr numLevels

/-- The arrays of the constructor. -/
def allocate (numLevels : ℕ) : List (List ℤ) :=
  (List.range numLevels).map fun j => List.replicate (2 ^ (numLevels - 1 - j)) 0

section

variable (p : WeightedPicker)

/-- `level_[num_levels_ - 1]`. -/
def leaves : List ℤ := p.levels.headD []

/-- `level_[l][i]`. -/
def node (l i : ℕ) : ℤ := (p.levels.getD (p.levels.length - 1 - l) []).getD i 0

/-- `total_weight`. -/
def totalWeight : ℤ := p.node 0 0

/-- The new leaves, and `RebuildTreeWeights`. -/
def rebuildTreeWeights (leaves : List ℤ) : WeightedPicker :=
  { p with levels := tower add32 (p.levels.length - 1) leaves }

/-- `SetAllWeights`. -/
def setAllWeights (weight : ℤ) : WeightedPicker :=
  p.rebuildTreeWeights
    (List.replicate p.n.toNat weight ++ List.replicate (p.leaves.length - p.n.toNat) 0)

/-- `WeightedPicker(N)`. -/
def new (n : ℤ) : Except Failure WeightedPicker :=
  if n < 0 then .error .checkFailed
  else do
    let numLevels ← loop .stillRunning (findLevels n) 32 1
    return setAllWeights ⟨n, allocate numLevels⟩ 1

/-- `get_weight`. -/
def getWeight (index : ℤ) : Except Failure ℤ :=
  if 0 ≤ index ∧ index < p.n then .ok (p.leaves.getD index.toNat 0) else .error .checkFailed

/-- `set_weight`. -/
def setWeight (index weight : ℤ) : Except Failure WeightedPicker :=
  if 0 ≤ index ∧ index < p.n then
    let delta := sub32 weight (p.leaves.getD index.toNat 0)
    .ok { p with levels := update (add32 · delta) index.toNat p.levels }
  else .error .assertFailed

/-- `Resize`. -/
def resize (newSize : ℤ) : Except Failure WeightedPicker :=
  if newSize < 0 then .error .checkFailed
  else if newSize ≤ p.leaves.length then do
    -- First zero out any of the weights that are being dropped.
    let p ← (List.range' newSize.toNat (p.n - newSize).toNat).foldlM (fun p i => p.setWeight i 0) p
    return { p with n := newSize }
  else if newSize > p.n then do
    let newPicker ← new newSize
    -- `memcpy`, then `memset`
    let dst := p.leaves.take p.n.toNat ++ newPicker.leaves.drop p.n.toNat
    let dst := dst.take p.n.toNat
      ++ (List.replicate (newSize - p.n).toNat 0 ++ dst.drop newSize.toNat)
    return newPicker.rebuildTreeWeights dst
  else .error .assertFailed

/-- `SetWeightsFromArray`. -/
def setWeightsFromArray (weights : List ℤ) : Except Failure WeightedPicker := do
  let p ← p.resize weights.length
  return p.rebuildTreeWeights (weights ++ List.replicate (p.leaves.length - weights.length) 0)

/-- `Append`. -/
def append (weight : ℤ) : Except Failure WeightedPicker := do
  let p ← p.resize (p.n + 1)
  p.setWeight (p.n - 1) weight

/-- `PickAt`. -/
def pickAt (weightIndex : ℤ) : Except Failure ℤ :=
  if weightIndex < 0 ∨ weightIndex ≥ p.totalWeight then .ok (-1)
  else
    let (index, position) := locate sub32 weightIndex p.levels
    if (index : ℤ) < p.n ∧ position ≤ p.leaves.getD index 0 then .ok index else .error .checkFailed

end

/-- The operations. -/
inductive Op
  | setWeight (index weight : ℤ)
  | setAllWeights (weight : ℤ)
  | setWeightsFromArray (weights : List ℤ)
  | append (weight : ℤ)
  | resize (newSize : ℤ)
  deriving Repr, DecidableEq

/-- An operation on a picker. -/
def step (p : WeightedPicker) (op : Op) : Except Failure (Unit × WeightedPicker) :=
  Prod.mk () <$> match op with
    | .setWeight index weight => p.setWeight index weight
    | .setAllWeights weight => .ok (p.setAllWeights weight)
    | .setWeightsFromArray weights => p.setWeightsFromArray weights
    | .append weight => p.append weight
    | .resize newSize => p.resize newSize

/-- A picker, and what is done with it. -/
def runPicker (n : ℤ) (ops : List Op) : Except Failure WeightedPicker := do
  let p ← new n
  let r ← run step p ops
  return r.2

/-! ### What it is for -/

/-- What an operation does to the weights. -/
def Op.apply (weights : List ℤ) : Op → List ℤ
  | .setWeight index weight => weights.set index.toNat weight
  | .setAllWeights weight => List.replicate weights.length weight
  | .setWeightsFromArray weights' => weights'
  | .append weight => weights ++ [weight]
  | .resize newSize =>
    weights.take newSize.toNat ++ List.replicate (newSize.toNat - weights.length) 0

/-- The list model. -/
def spec (weights : List ℤ) (op : Op) : Unit × List ℤ := ((), op.apply weights)

/-- `INT32_MAX`. -/
def maxInt32 : ℤ := 2 ^ 31 - 1

/-- What `set_weight` and `Resize` require. -/
def Op.Requires (weights : List ℤ) : Op → Prop
  | .setWeight index _ => 0 ≤ index ∧ index < weights.length
  | .resize newSize => 0 ≤ newSize
  | _ => True

/-- What an operation may be called with: no weight is to become negative, and their sum is to stay an
`int32`. -/
def Allowed (weights : List ℤ) (op : Op) : Prop :=
  op.Requires weights ∧ Bounded maxInt32 (op.apply weights)

/-- An operation that leaves no more than 2³⁰ elements. -/
def Small (weights : List ℤ) (op : Op) : Prop := (op.apply weights).length ≤ 2 ^ 30

/-- The picker stands for the weights: its inner nodes are the sums of their children, the leaves behind
the elements are 0, and `get_weight`, `total_weight` and `PickAt` say what the weights say. -/
structure Good (p : WeightedPicker) (weights : List ℤ) : Prop where
  size : p.n = weights.length
  nodes : ∀ l, l + 1 < p.levels.length → ∀ i < 2 ^ l,
    p.node l i = p.node (l + 1) (2 * i) + p.node (l + 1) (2 * i + 1)
  unused : ∀ i : ℕ, p.n ≤ i → p.leaves.getD i 0 = 0
  getWeight : ∀ i : ℕ, ∀ h : i < weights.length, p.getWeight i = .ok weights[i]
  total : p.totalWeight = weights.sum
  pick : ∀ w, 0 ≤ w → w < p.totalWeight → ∃ i < weights.length,
    p.pickAt w = .ok i ∧ (weights.take i).sum ≤ w ∧ w < (weights.take (i + 1)).sum ∧
      ∀ j, (weights.take j).sum ≤ w ∧ w < (weights.take (j + 1)).sum → j = i
  outside : ∀ w, ¬ (0 ≤ w ∧ w < p.totalWeight) → p.pickAt w = .ok (-1)

/-! ### Arithmetic -/

theorem int32_eq {x : ℤ} (h : -2 ^ 31 ≤ x) (h' : x ≤ maxInt32) : int32 x = x := by
  rw [int32, Int.bmod_eq_of_le] <;> simp [maxInt32] at * <;> omega

theorem add32_eq (a b : ℤ) (ha : 0 ≤ a) (hb : 0 ≤ b) (h : a + b ≤ maxInt32) : add32 a b = a + b :=
  int32_eq (by omega) h

theorem sub32_eq (a b : ℤ) (hb : 0 ≤ b) (h : b ≤ a) (ha : a ≤ maxInt32) : sub32 a b = a - b :=
  int32_eq (by omega) (by omega)

/-- The difference of two weights. -/
theorem sub32_eq_of_mem {a b : ℤ} (ha : 0 ≤ a) (ha' : a ≤ maxInt32) (hb : 0 ≤ b) (hb' : b ≤ maxInt32) :
    sub32 a b = a - b := by
  unfold maxInt32 at ha' hb'
  exact int32_eq (by omega) (by unfold maxInt32; omega)

/-! ### The tree over the weights -/

/-- The leaves. -/
def padded (k : ℕ) (weights : List ℤ) : List ℤ :=
  weights ++ List.replicate (2 ^ k - weights.length) 0

/-- The picker with `k + 1` levels. -/
def treeOf (k : ℕ) (weights : List ℤ) : WeightedPicker :=
  ⟨weights.length, tower (· + ·) k (padded k weights)⟩

/-- The picker stands for the weights. -/
structure Represents (p : WeightedPicker) (weights : List ℤ) : Prop where
  bounded : Bounded maxInt32 weights
  tree : ∃ k ≤ 30, weights.length ≤ 2 ^ k ∧ p = treeOf k weights

section

variable {k : ℕ} {weights : List ℤ}

theorem length_padded (h : weights.length ≤ 2 ^ k) : (padded k weights).length = 2 ^ k := by
  rw [padded, List.length_append, List.length_replicate]
  omega

theorem bounded_append_zeros {bound : ℤ} (h : Bounded bound weights) (m : ℕ) :
    Bounded bound (weights ++ List.replicate m 0) := by
  refine ⟨fun x hx => ?_, ?_⟩
  · rcases List.mem_append.mp hx with hx | hx
    · exact h.nonneg x hx
    · exact (List.eq_of_mem_replicate hx).ge
  · rw [List.sum_append, List.sum_replicate, nsmul_zero, add_zero]
    exact h.sum_le

theorem bounded_padded (h : Bounded maxInt32 weights) (k : ℕ) : Bounded maxInt32 (padded k weights) :=
  bounded_append_zeros h _

/-- Zeros at the end are there already. -/
theorem padded_append_zeros {m : ℕ} (h : weights.length + m ≤ 2 ^ k) :
    padded k (weights ++ List.replicate m 0) = padded k weights := by
  have hsum : m + (2 ^ k - (weights.length + m)) = 2 ^ k - weights.length := by omega
  rw [padded, padded, List.length_append, List.length_replicate, List.append_assoc,
    List.replicate_append_replicate, hsum]

theorem leaves_treeOf : (treeOf k weights).leaves = padded k weights := by
  cases k <;> rfl

theorem length_levels_treeOf : (treeOf k weights).levels.length = k + 1 := length_tower _ _ _

/-- **`RebuildTreeWeights`**. -/
theorem rebuildTreeWeights_eq {p : WeightedPicker} (hn : p.n = weights.length)
    (hk : p.levels.length = k + 1) (hlen : weights.length ≤ 2 ^ k) (hb : Bounded maxInt32 weights) :
    p.rebuildTreeWeights (padded k weights) = treeOf k weights := by
  rw [rebuildTreeWeights, treeOf, hn, hk, Nat.add_sub_cancel,
    tower_congr add32_eq (bounded_padded hb k) (length_padded hlen)]

theorem modify_eq_set {l : List ℤ} {i : ℕ} (hi : i < l.length) (w : ℤ) :
    l.modify i (· + (w - l[i])) = l.set i w := by
  refine List.ext_getElem (by rw [List.length_modify, List.length_set]) fun j hj hj' => ?_
  rw [List.getElem_modify, List.getElem_set]
  split_ifs with hij
  · subst hij
    omega
  · rfl

/-- **`set_weight`**. -/
theorem setWeight_treeOf {i : ℕ} (hi : i < weights.length) (hlen : weights.length ≤ 2 ^ k)
    (hb : Bounded maxInt32 weights) {w : ℤ} (hb' : Bounded maxInt32 (weights.set i w)) :
    (treeOf k weights).setWeight i w = .ok (treeOf k (weights.set i w)) := by
  have hpadded : i < (padded k weights).length := by
    rw [length_padded hlen]
    omega
  have hleaf : (padded k weights)[i] = weights[i] := List.getElem_append_left hi
  have hset : (padded k weights).set i w = padded k (weights.set i w) := by
    rw [padded, padded, List.set_append_left _ _ hi, List.length_set]
  have hold : weights[i] ∈ weights := List.getElem_mem hi
  have hnew : w ∈ weights.set i w := List.mem_set hi w
  have hdelta : sub32 w weights[i] = w - weights[i] :=
    sub32_eq_of_mem (hb'.nonneg w hnew) (hb'.le hnew) (hb.nonneg _ hold) (hb.le hold)
  have hmodify : (padded k weights).modify i (· + (w - weights[i])) = padded k (weights.set i w) := by
    rw [← hset, ← modify_eq_set hpadded w, hleaf]
  have hexact : ∀ x : ℤ, 0 ≤ x → x ≤ maxInt32 → 0 ≤ x + (w - weights[i]) →
      x + (w - weights[i]) ≤ maxInt32 → add32 x (w - weights[i]) = x + (w - weights[i]) :=
    fun x _ _ h0 h => int32_eq (by omega) h
  have hupdate := update_tower hexact (length_padded hlen) (bounded_padded hb k)
    (hmodify ▸ bounded_padded hb' k)
  have hindex : (0 : ℤ) ≤ i ∧ (i : ℤ) < (treeOf k weights).n :=
    ⟨Int.natCast_nonneg i, by rw [treeOf]; dsimp only; exact_mod_cast hi⟩
  rw [setWeight, if_pos hindex, leaves_treeOf]
  simp only [Int.toNat_natCast, List.getD_eq_getElem _ _ hpadded, hleaf, hdelta]
  rw [treeOf, treeOf, List.length_set]
  dsimp only
  rw [hupdate, hmodify]

theorem bounded_set_zero {bound : ℤ} (hb : Bounded bound weights) (i : ℕ) :
    Bounded bound (weights.set i 0) := by
  induction weights generalizing i bound with
  | nil => exact hb
  | cons w weights ih =>
    have hw := hb.nonneg w List.mem_cons_self
    cases i with
    | zero =>
      refine ⟨List.forall_mem_cons.mpr ⟨le_rfl, hb.tail.nonneg⟩, ?_⟩
      rw [List.set_cons_zero, List.sum_cons, zero_add]
      exact hb.tail.sum_le
    | succ i =>
      have htail : Bounded (bound - w) weights := by
        refine ⟨hb.tail.nonneg, ?_⟩
        have hsum := hb.sum_le
        rw [List.sum_cons] at hsum
        omega
      have hrest := ih htail i
      refine ⟨List.forall_mem_cons.mpr ⟨hw, hrest.nonneg⟩, ?_⟩
      have hsum := hrest.sum_le
      rw [List.set_cons_succ, List.sum_cons]
      omega

/-- The loop that drops weights. -/
theorem foldlM_setWeight_zero {i m : ℕ} (h : i + m ≤ weights.length) (hlen : weights.length ≤ 2 ^ k)
    (hb : Bounded maxInt32 weights) :
    (List.range' i m).foldlM (fun p j => p.setWeight j 0) (treeOf k weights)
      = .ok (treeOf k (weights.take i ++ (List.replicate m 0 ++ weights.drop (i + m)))) := by
  induction m generalizing i weights with
  | zero => simp only [List.range'_zero, List.foldlM_nil, List.replicate_zero, List.nil_append,
      Nat.add_zero, List.take_append_drop]; rfl
  | succ m ih =>
    have hset := setWeight_treeOf (i := i) (by omega) hlen hb (bounded_set_zero hb i)
    have hrest := ih (show i + 1 + m ≤ (weights.set i 0).length by rw [List.length_set]; omega)
      (by rwa [List.length_set]) (bounded_set_zero hb i)
    rw [List.range'_succ, List.foldlM_cons, hset]
    change List.foldlM _ (treeOf k (weights.set i 0)) _ = _
    rw [hrest]
    have htake : (weights.set i 0).take (i + 1) = weights.take i ++ [0] := by
      have hi : i < weights.length := by omega
      rw [List.set_eq_take_append_cons_drop, if_pos hi, List.take_append,
        List.length_take_of_le hi.le, Nat.add_sub_cancel_left, List.take_take,
        min_eq_right (Nat.le_succ i)]
      rfl
    have hdrop : (weights.set i 0).drop (i + 1 + m) = weights.drop (i + (m + 1)) := by
      rw [List.drop_set_of_lt (by omega), Nat.add_assoc, Nat.add_comm 1 m]
    rw [htake, hdrop, List.replicate_succ, List.append_assoc]
    rfl

/-! ### The constructor -/

theorem length_allocate (numLevels : ℕ) : (allocate numLevels).length = numLevels := by
  rw [allocate, List.length_map, List.length_range]

theorem leaves_allocate (n : ℤ) (k : ℕ) :
    WeightedPicker.leaves ⟨n, allocate (k + 1)⟩ = List.replicate (2 ^ k) 0 := by
  rw [leaves, allocate, List.range_succ_eq_map]
  simp

/-- The search ends with enough leaves. -/
theorem findLevels_ok {n : ℤ} (hn : n ≤ 2 ^ 30) :
    ∃ numLevels, loop .stillRunning (findLevels n) 32 1 = .ok numLevels ∧
      1 ≤ numLevels ∧ numLevels ≤ 31 ∧ n ≤ 2 ^ (numLevels - 1) := by
  refine loop_total (fun numLevels => 1 ≤ numLevels ∧ numLevels ≤ 31) (fun numLevels => _)
    (fun numLevels => 31 - numLevels) (fun numLevels hlevels => ?_) ⟨le_rfl, by decide⟩ (by decide)
  obtain ⟨hlo, hhi⟩ := hlevels
  have hsize : levelSize (numLevels - 1) = .ok (2 ^ (numLevels - 1)) := if_pos (by omega)
  rw [findLevels, hsize]
  by_cases hlt : (2 : ℤ) ^ (numLevels - 1) < n
  · refine .inl ⟨numLevels + 1, if_pos hlt, ?_, ?_⟩
    · refine ⟨by omega, ?_⟩
      by_contra hlarge
      obtain rfl : numLevels = 31 := by omega
      omega
    · have hne : numLevels ≠ 31 := by
        rintro rfl
        omega
      omega
  · exact .inr ⟨numLevels, if_neg hlt, hlo, hhi, not_lt.mp hlt⟩

/-- For too many elements there is no number of levels. -/
theorem findLevels_error {n : ℤ} (hn : 2 ^ 30 < n) :
    ∃ e, loop .stillRunning (findLevels n) 32 1 = .error e := by
  refine loop_outcome (fun _ => True) (fun _ => True) (fun r => ∃ e, r = .error e) ⟨_, rfl⟩
    (fun numLevels _ _ => ?_) trivial fun _ _ => trivial
  rw [findLevels, levelSize]
  split_ifs with hlevel
  · have hlt : (2 : ℤ) ^ (numLevels - 1) < n := by
      refine lt_of_le_of_lt ?_ hn
      exact_mod_cast Nat.pow_le_pow_right Nat.two_pos (by omega : numLevels - 1 ≤ 30)
    change TurnKeeps _ _ (if (2 : ℤ) ^ (numLevels - 1) < n then _ else _)
    rw [if_pos hlt]
    trivial
  · exact ⟨_, rfl⟩

/-- **The constructor.** -/
theorem new_ok {n : ℕ} (hn : n ≤ 2 ^ 30) :
    ∃ k ≤ 30, n ≤ 2 ^ k ∧ new n = .ok (treeOf k (List.replicate n 1)) := by
  obtain ⟨numLevels, hloop, hlo, hhi, hle⟩ := findLevels_ok (n := n) (by exact_mod_cast hn)
  obtain ⟨k, rfl⟩ : ∃ k, numLevels = k + 1 := ⟨numLevels - 1, by omega⟩
  have hlen : n ≤ 2 ^ k := by exact_mod_cast hle
  have hb : Bounded maxInt32 (List.replicate n 1) := by
    refine ⟨fun x hx => ?_, ?_⟩
    · rw [List.eq_of_mem_replicate hx]
      decide
    · rw [List.sum_replicate, nsmul_one, maxInt32]
      omega
  refine ⟨k, by omega, hlen, ?_⟩
  rw [new, if_neg (by omega), hloop]
  have hleaves : List.replicate n 1
      ++ List.replicate ((WeightedPicker.leaves ⟨n, allocate (k + 1)⟩).length - n) 0
      = padded k (List.replicate n (1 : ℤ)) := by
    rw [leaves_allocate, List.length_replicate, padded, List.length_replicate]
  have hset : setAllWeights ⟨n, allocate (k + 1)⟩ 1 = treeOf k (List.replicate n 1) := by
    rw [setAllWeights]
    dsimp only
    rw [Int.toNat_natCast, hleaves]
    exact rebuildTreeWeights_eq (by rw [List.length_replicate]) (length_allocate _)
      (by rwa [List.length_replicate]) hb
  exact congrArg Except.ok hset

theorem new_error {n : ℤ} (hn : 2 ^ 30 < n) : ∃ e, new n = .error e := by
  obtain ⟨e, he⟩ := findLevels_error hn
  rw [new, if_neg (by omega), he]
  exact ⟨e, rfl⟩

/-! ### The operations -/

theorem bounded_resized (hb : Bounded maxInt32 weights) (n : ℕ) :
    Bounded maxInt32 ((Op.resize n).apply weights) := by
  refine bounded_append_zeros ⟨fun x hx => hb.nonneg x (List.mem_of_mem_take hx), ?_⟩ _
  rw [Int.toNat_natCast]
  refine le_trans ?_ hb.sum_le
  conv_rhs => rw [← List.take_append_drop n weights]
  rw [List.sum_append]
  exact le_add_of_nonneg_right
    (List.sum_nonneg fun x hx => hb.nonneg x (List.mem_of_mem_drop hx))

theorem length_resized (weights : List ℤ) (n : ℕ) : ((Op.resize n).apply weights).length = n := by
  simp only [Op.apply, List.length_append, List.length_take, List.length_replicate, Int.toNat_natCast]
  omega

/-- **`Resize`** within the levels there are. -/
theorem resize_small {n : ℕ} (hn : n ≤ 2 ^ k) (hlen : weights.length ≤ 2 ^ k)
    (hb : Bounded maxInt32 weights) :
    (treeOf k weights).resize n = .ok (treeOf k ((Op.resize n).apply weights)) := by
  have hfits : (n : ℤ) ≤ (treeOf k weights).leaves.length := by
    rw [leaves_treeOf, length_padded hlen]
    exact_mod_cast hn
  have hcount : ((treeOf k weights).n - n).toNat = weights.length - n := by
    rw [treeOf]
    dsimp only
    omega
  rw [resize, if_neg (by omega), if_pos hfits, Int.toNat_natCast, hcount]
  rcases Nat.le_total weights.length n with hgrow | hshrink
  · have hnone : weights.length - n = 0 := by omega
    have htake : (Op.resize n).apply weights
        = weights ++ List.replicate (n - weights.length) 0 := by
      rw [Op.apply, Int.toNat_natCast, List.take_of_length_le hgrow]
    rw [hnone, htake, treeOf, treeOf, padded_append_zeros (by omega)]
    refine congrArg (fun m : ℤ => Except.ok (⟨m, _⟩ : WeightedPicker)) ?_
    rw [List.length_append, List.length_replicate]
    omega
  · rw [foldlM_setWeight_zero (by omega) hlen hb]
    have hall : n + (weights.length - n) = weights.length := by omega
    have htake : (Op.resize n).apply weights = weights.take n := by
      rw [Op.apply, Int.toNat_natCast, Nat.sub_eq_zero_of_le hshrink, List.replicate_zero,
        List.append_nil]
    have hlength : (weights.take n).length = n := List.length_take_of_le hshrink
    rw [hall, List.drop_length, List.append_nil, htake]
    change Except.ok (⟨n, tower (· + ·) k (padded k (weights.take n ++ _))⟩ : WeightedPicker) = _
    rw [padded_append_zeros (by omega), treeOf, hlength]

/-- **`Resize`** beyond them: the weights move to a larger tree. -/
theorem resize_large {n : ℕ} (hn : 2 ^ k < n) (hmax : n ≤ 2 ^ 30) (hlen : weights.length ≤ 2 ^ k)
    (hb : Bounded maxInt32 weights) :
    ∃ k' ≤ 30, n ≤ 2 ^ k' ∧
      (treeOf k weights).resize n = .ok (treeOf k' ((Op.resize n).apply weights)) := by
  obtain ⟨k', hk', hlen', hnew⟩ := new_ok hmax
  have hfits : ¬ (n : ℤ) ≤ (treeOf k weights).leaves.length := by
    rw [leaves_treeOf, length_padded hlen]
    exact_mod_cast not_le.mpr hn
  have hlarger : (n : ℤ) > (treeOf k weights).n := by
    rw [treeOf]
    dsimp only
    omega
  refine ⟨k', hk', hlen', ?_⟩
  rw [resize, if_neg (by omega), if_neg hfits, if_pos hlarger, hnew]
  have hsize : (treeOf k weights).n.toNat = weights.length := by
    rw [treeOf]
    exact Int.toNat_natCast _
  have hmore : ((n : ℤ) - (treeOf k weights).n).toNat = n - weights.length := by
    rw [treeOf]
    dsimp only
    omega
  have hresized : (Op.resize n).apply weights
      = weights ++ List.replicate (n - weights.length) 0 := by
    rw [Op.apply, Int.toNat_natCast, List.take_of_length_le (by omega)]
  have hcopied : (padded k weights).take weights.length = weights := by
    rw [padded, List.take_left]
  have hzeros : (padded k' (List.replicate n (1 : ℤ))).drop n = List.replicate (2 ^ k' - n) 0 := by
    rw [padded, List.length_replicate, List.drop_left' (List.length_replicate ..)]
  change Except.ok (rebuildTreeWeights _ _) = _
  rw [leaves_treeOf, leaves_treeOf, hsize, hmore, hcopied, List.take_left,
    Int.toNat_natCast, List.drop_append, List.drop_eq_nil_of_le (by omega), List.nil_append,
    List.drop_drop, Nat.add_sub_cancel' (by omega), hzeros, hresized]
  have hlength : (weights ++ List.replicate (n - weights.length) 0).length = n := by
    rw [← hresized, length_resized]
  have hleaves : weights ++ (List.replicate (n - weights.length) 0 ++ List.replicate (2 ^ k' - n) 0)
      = padded k' (weights ++ List.replicate (n - weights.length) 0) := by
    rw [padded, hlength, List.append_assoc]
  rw [hleaves]
  refine congrArg Except.ok (rebuildTreeWeights_eq ?_ length_levels_treeOf (hlength.trans_le hlen')
    (hresized ▸ bounded_resized hb n))
  rw [hlength, treeOf, List.length_replicate]

/-- **`Resize`**. -/
theorem resize_ok {p : WeightedPicker} (hp : Represents p weights) {n : ℕ} (hn : n ≤ 2 ^ 30) :
    ∃ p', p.resize n = .ok p' ∧ Represents p' ((Op.resize n).apply weights) := by
  obtain ⟨hb, k, hk, hlen, rfl⟩ := hp
  have hlength := length_resized weights n
  rcases Nat.lt_or_ge (2 ^ k) n with hlarge | hsmall
  · obtain ⟨k', hk', hlen', hres⟩ := resize_large hlarge hn hlen hb
    exact ⟨_, hres, bounded_resized hb n, k', hk', hlength.trans_le hlen', rfl⟩
  · exact ⟨_, resize_small hsmall hlen hb, bounded_resized hb n, k, hk, hlength.trans_le hsmall, rfl⟩

theorem resize_error {p : WeightedPicker} (hp : Represents p weights) {n : ℤ} (hn : 2 ^ 30 < n) :
    ∃ e, p.resize n = .error e := by
  obtain ⟨hb, k, hk, hlen, rfl⟩ := hp
  have hpow : (2 : ℕ) ^ k ≤ 2 ^ 30 := Nat.pow_le_pow_right Nat.two_pos hk
  have hfits : ¬ n ≤ (treeOf k weights).leaves.length := by
    rw [leaves_treeOf, length_padded hlen]
    omega
  obtain ⟨e, he⟩ := new_error hn
  rw [resize, if_neg (by omega), if_neg hfits]
  split_ifs
  · rw [he]
    exact ⟨e, rfl⟩
  · exact ⟨_, rfl⟩

/-- **`SetAllWeights`**. -/
theorem setAllWeights_represents {p : WeightedPicker} (hp : Represents p weights) {w : ℤ}
    (hb' : Bounded maxInt32 (List.replicate weights.length w)) :
    Represents (p.setAllWeights w) (List.replicate weights.length w) := by
  obtain ⟨hb, k, hk, hlen, rfl⟩ := hp
  refine ⟨hb', k, hk, by rwa [List.length_replicate], ?_⟩
  have hn : (treeOf k weights).n.toNat = weights.length := Int.toNat_natCast _
  have hleaves : List.replicate weights.length w ++ List.replicate (2 ^ k - weights.length) 0
      = padded k (List.replicate weights.length w) := by
    rw [padded, List.length_replicate]
  rw [setAllWeights, hn, leaves_treeOf, length_padded hlen, hleaves]
  exact rebuildTreeWeights_eq (by rw [List.length_replicate]; rfl) length_levels_treeOf
    (by rwa [List.length_replicate]) hb'

/-- **`SetWeightsFromArray`**. -/
theorem setWeightsFromArray_ok {p : WeightedPicker} (hp : Represents p weights)
    {weights' : List ℤ} (hb' : Bounded maxInt32 weights') (hn : weights'.length ≤ 2 ^ 30) :
    ∃ p', p.setWeightsFromArray weights' = .ok p' ∧ Represents p' weights' := by
  obtain ⟨p', hres, hb, k, hk, hlen, rfl⟩ := resize_ok hp hn
  rw [length_resized] at hlen
  refine ⟨treeOf k weights', ?_, hb', k, hk, hlen, rfl⟩
  have hlength := length_resized weights weights'.length
  have hleaves : weights' ++ List.replicate (2 ^ k - weights'.length) 0 = padded k weights' := rfl
  have hn' : (treeOf k ((Op.resize weights'.length).apply weights)).n = weights'.length := by
    rw [treeOf, hlength]
  rw [setWeightsFromArray, hres]
  change Except.ok (rebuildTreeWeights _ _) = _
  rw [leaves_treeOf, length_padded (by rwa [hlength]), hleaves,
    rebuildTreeWeights_eq hn' length_levels_treeOf hlen hb']

/-- **`Append`**. -/
theorem append_ok {p : WeightedPicker} (hp : Represents p weights) {w : ℤ}
    (hb' : Bounded maxInt32 (weights ++ [w])) (hn : weights.length + 1 ≤ 2 ^ 30) :
    ∃ p', p.append w = .ok p' ∧ Represents p' (weights ++ [w]) := by
  have hsize : p.n + 1 = (weights.length + 1 : ℕ) := by
    obtain ⟨-, k, -, -, rfl⟩ := hp
    rfl
  obtain ⟨p', hres, hb, k, hk, hlen, rfl⟩ := resize_ok hp hn
  have hresized : (Op.resize (weights.length + 1 : ℕ)).apply weights = weights ++ [0] := by
    rw [Op.apply, Int.toNat_natCast, List.take_of_length_le (Nat.le_succ _), Nat.add_sub_cancel_left]
    rfl
  rw [hresized] at hres hb hlen
  have hset : (weights ++ [(0 : ℤ)]).set weights.length w = weights ++ [w] := by
    rw [List.set_append_right _ _ le_rfl, Nat.sub_self]
    rfl
  have hlength : (weights ++ [(0 : ℤ)]).length = weights.length + 1 := by simp
  have hlast : (treeOf k (weights ++ [0])).n - 1 = (weights.length : ℤ) := by
    rw [treeOf, hlength]
    dsimp only
    omega
  refine ⟨treeOf k (weights ++ [w]), ?_, hb', k, hk, ?_, rfl⟩
  · rw [append, hsize, hres]
    change (treeOf k (weights ++ [0])).setWeight ((treeOf k (weights ++ [0])).n - 1) w = _
    rw [hlast, setWeight_treeOf (by omega) hlen hb (hset.symm ▸ hb'), hset]
  · simpa using hlen

/-- **An operation** that leaves no more than 2³⁰ elements succeeds. -/
theorem step_ok {p : WeightedPicker} (hp : Represents p weights) {op : Op}
    (hallowed : Allowed weights op) (hsmall : Small weights op) :
    ∃ p', step p op = .ok ((), p') ∧ Represents p' (op.apply weights) := by
  obtain ⟨hrequires, hb'⟩ := hallowed
  cases op with
  | setWeight index w =>
    obtain ⟨hlo, hhi⟩ := hrequires
    obtain ⟨i, rfl⟩ : ∃ i : ℕ, index = i := ⟨index.toNat, by omega⟩
    obtain ⟨hb, k, hk, hlen, rfl⟩ := hp
    rw [Op.apply, Int.toNat_natCast] at hb' ⊢
    refine ⟨treeOf k (weights.set i w), ?_, hb', k, hk, by rwa [List.length_set], rfl⟩
    rw [step, setWeight_treeOf (by omega) hlen hb hb']
    rfl
  | setAllWeights w => exact ⟨_, rfl, setAllWeights_represents hp hb'⟩
  | setWeightsFromArray weights' =>
    rw [Op.apply] at hb' ⊢
    obtain ⟨p', hres, hp'⟩ := setWeightsFromArray_ok hp hb' hsmall
    exact ⟨p', by rw [step, hres]; rfl, hp'⟩
  | append w =>
    have hn : weights.length + 1 ≤ 2 ^ 30 := by simpa [Small, Op.apply] using hsmall
    obtain ⟨p', hres, hp'⟩ := append_ok hp hb' hn
    exact ⟨p', by rw [step, hres]; rfl, hp'⟩
  | resize newSize =>
    obtain ⟨n, rfl⟩ : ∃ n : ℕ, newSize = n := ⟨newSize.toNat, (Int.toNat_of_nonneg hrequires).symm⟩
    obtain ⟨p', hres, hp'⟩ := resize_ok hp (by simpa only [Small, length_resized] using hsmall)
    exact ⟨p', by rw [step, hres]; rfl, hp'⟩

/-- One that would leave more fails. -/
theorem step_error {p : WeightedPicker} (hp : Represents p weights) {op : Op}
    (hallowed : Allowed weights op) (hlarge : ¬ Small weights op) : ∃ e, step p op = .error e := by
  have hlen : weights.length ≤ 2 ^ 30 := by
    obtain ⟨-, k, hk, hlen, -⟩ := hp
    exact hlen.trans (Nat.pow_le_pow_right Nat.two_pos hk)
  have hn : p.n = weights.length := by
    obtain ⟨-, k, -, -, rfl⟩ := hp
    rfl
  rw [Small] at hlarge
  cases op with
  | setWeight index w =>
    rw [Op.apply, List.length_set] at hlarge
    exact absurd hlen hlarge
  | setAllWeights w =>
    rw [Op.apply, List.length_replicate] at hlarge
    exact absurd hlen hlarge
  | setWeightsFromArray weights' =>
    rw [Op.apply] at hlarge
    obtain ⟨e, he⟩ := resize_error hp (n := weights'.length) (by omega)
    exact ⟨e, by rw [step, setWeightsFromArray, he]; rfl⟩
  | append w =>
    rw [Op.apply, List.length_append, List.length_singleton] at hlarge
    obtain ⟨e, he⟩ := resize_error hp (n := p.n + 1) (by omega)
    exact ⟨e, by rw [step, append, he]; rfl⟩
  | resize newSize =>
    obtain ⟨n, rfl⟩ : ∃ n : ℕ, newSize = n :=
      ⟨newSize.toNat, (Int.toNat_of_nonneg hallowed.1).symm⟩
    rw [length_resized] at hlarge
    obtain ⟨e, he⟩ := resize_error hp (n := n) (by omega)
    exact ⟨e, by rw [step, he]; rfl⟩

/-! ### What the tree says -/

theorem node_treeOf {l i : ℕ} :
    (treeOf k weights).node l i = ((tower (· + ·) k (padded k weights)).getD (k - l) []).getD i 0 := by
  rw [node, length_levels_treeOf, Nat.add_sub_cancel]
  rfl

theorem totalWeight_treeOf (hlen : weights.length ≤ 2 ^ k) :
    (treeOf k weights).totalWeight = weights.sum := by
  rw [totalWeight, node_treeOf, Nat.sub_zero, tower_root (length_padded hlen), padded,
    List.sum_append, List.sum_replicate, nsmul_zero, add_zero]
  rfl

/-- The first elements of the leaves are the weights. -/
theorem sum_take_padded (i : ℕ) : ((padded k weights).take i).sum = (weights.take i).sum := by
  rw [padded, List.take_append, List.sum_append, List.take_replicate, List.sum_replicate, nsmul_zero,
    add_zero]

/-- **`PickAt`.** -/
theorem pickAt_treeOf (hb : Bounded maxInt32 weights) (hlen : weights.length ≤ 2 ^ k) {w : ℤ}
    (hw : 0 ≤ w) (hlt : w < weights.sum) :
    ∃ i < weights.length, (treeOf k weights).pickAt w = .ok i ∧
      (weights.take i).sum ≤ w ∧ w < (weights.take (i + 1)).sum := by
  have hsum : (padded k weights).sum = weights.sum := by
    rw [padded, List.sum_append, List.sum_replicate, nsmul_zero, add_zero]
  have hat := locate_tower sub32_eq (bounded_padded hb k) (length_padded hlen) hw (hsum ▸ hlt)
  obtain ⟨r, hr⟩ : ∃ r, r = locate sub32 w (tower (· + ·) k (padded k weights)) := ⟨_, rfl⟩
  rw [← hr] at hat
  have hle := hat.le
  have hlt' := hat.lt_succ
  rw [sum_take_padded] at hle hlt'
  have hi : r.1 < weights.length := by
    by_contra hge
    rw [List.take_of_length_le (not_lt.mp hge)] at hle
    exact absurd hlt (not_lt.mpr hle)
  refine ⟨r.1, hi, ?_, hle, hlt'⟩
  have hrange : ¬ (w < 0 ∨ w ≥ (treeOf k weights).totalWeight) := by
    rw [totalWeight_treeOf hlen]
    omega
  have hchecks : (r.1 : ℤ) < (treeOf k weights).n ∧ r.2 ≤ (treeOf k weights).leaves.getD r.1 0 := by
    rw [leaves_treeOf]
    exact ⟨by rw [treeOf]; dsimp only; exact_mod_cast hi, hat.inside.le⟩
  rw [pickAt, if_neg hrange]
  change (if _ ∧ _ then _ else _) = _
  have hlocate : locate sub32 w (treeOf k weights).levels = r := hr.symm
  simp only [hlocate, if_pos hchecks]

/-- A picker that stands for weights is as it should be. -/
theorem Represents.good {p : WeightedPicker} (hp : Represents p weights) : Good p weights := by
  obtain ⟨hb, k, hk, hlen, rfl⟩ := hp
  have htotal := totalWeight_treeOf hlen
  refine ⟨rfl, fun l hl i hi => ?_, fun i hi => ?_, fun i hi => ?_, htotal, fun w hw hlt => ?_,
    fun w hw => ?_⟩
  · rw [length_levels_treeOf] at hl
    have hlevel : k - l = k - (l + 1) + 1 := by omega
    have hdepth : k - (k - (l + 1) + 1) = l := by omega
    rw [node_treeOf, node_treeOf, node_treeOf, hlevel]
    exact tower_node (by omega) (length_padded hlen) (hdepth.symm ▸ hi)
  · have hi' : weights.length ≤ i := by
      rw [treeOf] at hi
      dsimp only at hi
      omega
    rw [leaves_treeOf, padded, List.getD_append_right _ _ _ _ hi']
    rcases Nat.lt_or_ge (i - weights.length) (2 ^ k - weights.length) with h | h
    · rw [List.getD_replicate _ h]
    · rw [List.getD_eq_default _ _ (by rwa [List.length_replicate])]
  · have hindex : (0 : ℤ) ≤ i ∧ (i : ℤ) < (treeOf k weights).n :=
      ⟨Int.natCast_nonneg i, by rw [treeOf]; dsimp only; exact_mod_cast hi⟩
    rw [getWeight, if_pos hindex, leaves_treeOf, Int.toNat_natCast, padded,
      List.getD_append _ _ _ _ hi, List.getD_eq_getElem _ _ hi]
  · rw [htotal] at hlt
    obtain ⟨i, hi, hpick, hle, hlt'⟩ := pickAt_treeOf hb hlen hw hlt
    exact ⟨i, hi, hpick, hle, hlt', fun j hj => unique_index hb.nonneg hj ⟨hle, hlt'⟩⟩
  · rw [pickAt, if_pos (by omega)]

/-! ### Whole runs -/

theorem run_good_iff {p : WeightedPicker} (hp : Represents p weights) {ops : List Op}
    (hallowed : Permitted Allowed spec weights ops) :
    (∃ os p', run step p ops = .ok (os, p') ∧ Good p' (specRun spec weights ops).2) ↔
      Permitted Small spec weights ops := by
  constructor
  · rintro ⟨os, p', hrun, -⟩
    induction ops generalizing p weights os with
    | nil => trivial
    | cons op ops ih =>
      obtain ⟨hop, hops⟩ := hallowed
      obtain ⟨o, p₁, os₁, hstep, hrest, -⟩ := run_cons_eq_ok hrun
      have hsmall : Small weights op := by
        by_contra hlarge
        obtain ⟨e, he⟩ := step_error hp hop hlarge
        rw [he] at hstep
        cases hstep
      obtain ⟨p₂, hstep', hp₂⟩ := step_ok hp hop hsmall
      rw [hstep'] at hstep
      cases hstep
      exact ⟨hsmall, ih hp₂ hops os₁ hrest⟩
  · intro hsmall
    have hboth : Permitted (fun ws op => Allowed ws op ∧ Small ws op) spec weights ops := by
      clear hp
      induction ops generalizing weights with
      | nil => trivial
      | cons op ops ih =>
        exact ⟨⟨hallowed.1, hsmall.1⟩, ih hallowed.2 hsmall.2⟩
    have hsim : ∀ p ws op, Represents p ws → Allowed ws op ∧ Small ws op →
        ∃ p', step p op = .ok ((spec ws op).1, p') ∧ Represents p' (spec ws op).2 :=
      fun p ws op hp hop => step_ok hp hop.1 hop.2
    obtain ⟨p', hrun, hp'⟩ := run_refines hsim hp hboth
    exact ⟨_, p', hrun, hp'.good⟩

end

/-- **The picker** after a construction and any operations that keep the weights from becoming negative and
their sum an `int32`: it is as it should be exactly if there were never to be more than 2³⁰ elements. -/
theorem picker_good_iff {n : ℤ} (hn : 0 ≤ n) (hmax : n ≤ maxInt32) {ops : List Op}
    (hallowed : Permitted Allowed spec (List.replicate n.toNat 1) ops) :
    (∃ p, runPicker n ops = .ok p ∧ Good p (specRun spec (List.replicate n.toNat 1) ops).2) ↔
      n ≤ 2 ^ 30 ∧ Permitted Small spec (List.replicate n.toNat 1) ops := by
  rcases lt_or_ge (2 ^ 30) n with hlarge | hsmall
  · refine iff_of_false ?_ fun h => by omega
    rintro ⟨p, hp, -⟩
    obtain ⟨e, he⟩ := new_error hlarge
    rw [runPicker, he] at hp
    cases hp
  · obtain ⟨m, rfl⟩ : ∃ m : ℕ, n = m := ⟨n.toNat, (Int.toNat_of_nonneg hn).symm⟩
    rw [Int.toNat_natCast] at hallowed ⊢
    obtain ⟨k, hk, hlen, hnew⟩ := new_ok (n := m) (by exact_mod_cast hsmall)
    have hb : Bounded maxInt32 (List.replicate m 1) := by
      refine ⟨fun x hx => ?_, ?_⟩
      · rw [List.eq_of_mem_replicate hx]
        decide
      · rw [List.sum_replicate, nsmul_one]
        exact hmax
    have hp : Represents (treeOf k (List.replicate m 1)) (List.replicate m 1) :=
      ⟨hb, k, hk, by rwa [List.length_replicate], rfl⟩
    rw [and_iff_right hsmall, ← run_good_iff hp hallowed, runPicker, hnew]
    change (∃ p, (run step _ ops >>= fun r => Except.ok r.2) = .ok p ∧ _) ↔ _
    cases run step (treeOf k (List.replicate m 1)) ops with
    | error e => simp [bind, Except.bind]
    | ok r =>
      obtain ⟨os, p'⟩ := r
      simp [bind, Except.bind]

/-- Three elements, then four, then two. -/
theorem picker_good_iff_three :
    (∃ p, runPicker 3 [.setWeight 1 5, .append 4, .resize 2] = .ok p ∧
        Good p (specRun spec (List.replicate 3 1) [.setWeight 1 5, .append 4, .resize 2]).2) ↔
      (3 : ℤ) ≤ 2 ^ 30 ∧
        Permitted Small spec (List.replicate 3 1) [.setWeight 1 5, .append 4, .resize 2] :=
  picker_good_iff (by decide) (by decide)
    ⟨⟨⟨by decide, by decide⟩, by decide, by decide⟩, ⟨trivial, by decide, by decide⟩,
      ⟨by simp [Op.Requires], by decide, by decide⟩, trivial⟩

/-- One element more than there can be: all weights are 1, and their sum is far from the largest `int32`,
but the constructor shifts 1 too far. -/
theorem new_not_good :
    (0 : ℤ) ≤ 1073741825 ∧ 1073741825 ≤ maxInt32 ∧
      Permitted Allowed spec (List.replicate (Int.toNat 1073741825) 1) [] ∧
      ¬ ∃ p, runPicker 1073741825 [] = .ok p ∧
        Good p (specRun spec (List.replicate (Int.toNat 1073741825) 1) []).2 := by
  refine ⟨by decide, by decide, trivial, ?_⟩
  rintro ⟨p, hp, -⟩
  obtain ⟨e, he⟩ := new_error (n := 1073741825) (by decide)
  rw [runPicker, he] at hp
  cases hp

end WeightedPicker

end LearnNetlib.Random
