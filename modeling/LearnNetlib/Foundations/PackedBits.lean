import Mathlib.Data.Nat.Bitwise
import Mathlib.Tactic.Common

/-!
# Bits packed into words, and the search for the first of a kind

* `bit` — bit `i` of a list of words, the lowest of a word first;
* `bit_set`, `bit_set_or`, `bit_set_andNot` — what writing a word does to the bits;
* `IsFirst` — the first place from `start` on where something holds, or `stop`;
* `IsFirst.skip`, `IsFirst.found`, `IsFirst.none` — the rules of a search that goes piece by piece.
-/

namespace LearnNetlib.PackedBits

/-! ### Bits -/

section Bits

variable {w : ℕ} (words : List (BitVec w))

/-- Bit `i`; what is not stored is clear. -/
def bit (i : ℕ) : Bool := (words.getD (i / w) 0).getLsbD (i % w)

theorem bit_replicate (n i : ℕ) : bit (List.replicate n (0 : BitVec w)) i = false := by
  have hword : (List.replicate n (0 : BitVec w)).getD (i / w) 0 = 0 := by
    rw [List.getD_eq_getElem?_getD, List.getElem?_replicate]
    split_ifs <;> rfl
  rw [bit, hword]
  simp

theorem bit_mul_add {k t : ℕ} (ht : t < w) : bit words (k * w + t) = (words.getD k 0).getLsbD t := by
  have hw : 0 < w := by omega
  rw [bit, Nat.mul_comm, Nat.mul_add_div hw, Nat.mul_add_mod, Nat.div_eq_of_lt ht, Nat.mod_eq_of_lt ht,
    Nat.add_zero]

theorem bit_set {k : ℕ} (hk : k < words.length) (v : BitVec w) (i : ℕ) :
    bit (words.set k v) i = if i / w = k then v.getLsbD (i % w) else bit words i := by
  rw [bit, List.getD_eq_getElem?_getD, List.getElem?_set]
  by_cases h : i / w = k
  · rw [if_pos h.symm, if_pos h, if_pos hk, Option.getD_some]
  · rw [if_neg (Ne.symm h), if_neg h, ← List.getD_eq_getElem?_getD]
    rfl

theorem div_eq_and_mod_eq_iff {i j : ℕ} : (j / w = i / w ∧ i % w = j % w) ↔ j = i := by
  constructor
  · rintro ⟨hdiv, hmod⟩
    rw [← Nat.div_add_mod j w, ← Nat.div_add_mod i w, hdiv, hmod]
  · rintro rfl
    exact ⟨rfl, rfl⟩

/-- Setting a bit. -/
theorem bit_set_or (hw : 0 < w) {i : ℕ} (hi : i / w < words.length) (j : ℕ) :
    bit (words.set (i / w) (words.getD (i / w) 0 ||| BitVec.twoPow w (i % w))) j =
      (decide (j = i) || bit words j) := by
  rw [bit_set words hi]
  have hiff := div_eq_and_mod_eq_iff (w := w) (i := i) (j := j)
  by_cases h : j / w = i / w
  · rw [if_pos h, bit, ← h, BitVec.getLsbD_or, BitVec.getLsbD_twoPow, Bool.or_comm]
    simp only [h, true_and] at hiff
    simp [Nat.mod_lt i hw, hiff]
  · rw [if_neg h]
    have hne : j ≠ i := fun hji => h (hji ▸ rfl)
    simp [hne]

/-- Clearing a bit. -/
theorem bit_set_andNot (hw : 0 < w) {i : ℕ} (hi : i / w < words.length) (j : ℕ) :
    bit (words.set (i / w) (words.getD (i / w) 0 &&& ~~~BitVec.twoPow w (i % w))) j =
      (!decide (j = i) && bit words j) := by
  rw [bit_set words hi]
  have hiff := div_eq_and_mod_eq_iff (w := w) (i := i) (j := j)
  by_cases h : j / w = i / w
  · rw [if_pos h, bit, ← h, BitVec.getLsbD_and, BitVec.getLsbD_not, BitVec.getLsbD_twoPow, Bool.and_comm]
    simp only [h, true_and] at hiff
    simp [Nat.mod_lt i hw, Nat.mod_lt j hw, hiff]
  · rw [if_neg h]
    have hne : j ≠ i := fun hji => h (hji ▸ rfl)
    simp [hne]

/-- Testing a bit. -/
theorem and_twoPow_ne_zero {v : BitVec w} {t : ℕ} (ht : t < w) :
    v &&& BitVec.twoPow w t ≠ 0 ↔ v.getLsbD t = true := by
  rw [BitVec.and_twoPow]
  cases h : v.getLsbD t with
  | false => simp
  | true =>
    refine iff_of_true (fun hzero => ?_) rfl
    have hbit := congrArg (BitVec.getLsbD · t) hzero
    simp [ht] at hbit

end Bits

/-! ### Searches -/

section Search

variable {P : ℕ → Prop} {start mid stop r : ℕ}

/-- `r` is the first place from `start` on where `P` holds, or else `stop`. -/
def IsFirst (P : ℕ → Prop) (start stop r : ℕ) : Prop :=
  (start ≤ r ∧ r < stop ∧ P r ∨ r = stop) ∧ ∀ i, start ≤ i → i < r → ¬ P i

/-- Nothing is found. -/
theorem IsFirst.none (h : ∀ i, start ≤ i → i < stop → ¬ P i) : IsFirst P start stop stop := ⟨.inr rfl, h⟩

/-- Nothing is found up to `mid`. -/
theorem IsFirst.skip (h : ∀ i, start ≤ i → i < mid → ¬ P i) (hmid : start ≤ mid)
    (hr : IsFirst P mid stop r) : IsFirst P start stop r := by
  refine ⟨hr.1.imp_left fun hfound => ⟨hmid.trans hfound.1, hfound.2⟩, fun i hi hir => ?_⟩
  rcases Nat.lt_or_ge i mid with him | him
  · exact h i hi him
  · exact hr.2 i him hir

/-- Something is found, perhaps behind the end. -/
theorem IsFirst.found (hr : start ≤ r) (hP : P r) (h : ∀ i, start ≤ i → i < r → ¬ P i) :
    IsFirst P start stop (if r > stop then stop else r) := by
  rcases Nat.lt_trichotomy r stop with hlt | rfl | hgt
  · rw [if_neg hlt.le.not_gt]
    exact ⟨.inl ⟨hr, hlt, hP⟩, h⟩
  · rw [ite_self]
    exact .none h
  · rw [if_pos hgt]
    exact .none fun i hi his => h i hi (his.trans hgt)

end Search

end LearnNetlib.PackedBits
