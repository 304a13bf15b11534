import LearnNetlib.Foundations.CheckedInt
import Mathlib.Algebra.Order.Floor.Ring
import Mathlib.Data.Rat.Floor
import Mathlib.Tactic.Linarith

/-!
# `MathUtil::CeilOfRatio`, `FloorOfRatio`

* `ceilOrFloorOfRatio` — the code of `base/math_util.h`, over any type of integers;
* `tdiv_cases` — the quotient rounded toward zero, its product with the denominator and the numerator, by the
  signs of the two;
* `ceil_div_eq`, `floor_div_eq` — the ceiling and the floor in integers;
* **`ceilOfRatio_floorOfRatio_exact`** — both are exact, and nothing on the way leaves the type.
-/

namespace LearnNetlib.MathUtil

open CheckedInt

/-! ### The code -/

inductive Failure
  | divisionByZero
  | overflow
  deriving Repr, DecidableEq

/-- `CeilOrFloorOfRatio<IntegralType, ceil>`. -/
def ceilOrFloorOfRatio (T : IntType) (ceil : Bool) (numerator denominator : ℤ) : Except Failure ℤ :=
  if denominator = 0 then .error .divisionByZero
  else do
    let roundedTowardZero ← T.exact .overflow (numerator.tdiv denominator)
    let intermediateProduct ← T.exact .overflow (roundedTowardZero * denominator)
    if ceil then
      let needsAdjustment := roundedTowardZero ≥ 0 ∧
        ((denominator > 0 ∧ numerator > intermediateProduct) ∨
          (denominator < 0 ∧ numerator < intermediateProduct))
      let adjustment := if needsAdjustment then 1 else 0
      T.exact .overflow (roundedTowardZero + adjustment)
    else
      -- Floor case: symmetrical to the previous one
      let needsAdjustment := roundedTowardZero ≤ 0 ∧
        ((denominator > 0 ∧ numerator < intermediateProduct) ∨
          (denominator < 0 ∧ numerator > intermediateProduct))
      let adjustment := if needsAdjustment then 1 else 0
      T.exact .overflow (roundedTowardZero - adjustment)

/-- `CeilOfRatio`. -/
def ceilOfRatio (T : IntType) (numerator denominator : ℤ) : Except Failure ℤ :=
  ceilOrFloorOfRatio T true numerator denominator

/-- `FloorOfRatio`. -/
def floorOfRatio (T : IntType) (numerator denominator : ℤ) : Except Failure ℤ :=
  ceilOrFloorOfRatio T false numerator denominator

/-! ### Rounding toward zero -/

section Quotient

variable {n d : ℤ}

/-- A quotient `q` of two natural numbers, and its product `p` with the denominator. -/
structure Truncates (n d q p : ℤ) : Prop where
  nonneg : 0 ≤ q
  le : p ≤ n
  lt : n < p + d
  le_product : q ≤ p
  half : p < n → 2 * q ≤ p

theorem truncates_natCast (a : ℕ) {b : ℕ} (hb : 0 < b) :
    Truncates a b ((a / b : ℕ) : ℤ) ((a / b : ℕ) * (b : ℤ)) := by
  have hdiv : a / b * b + a % b = a := Nat.div_add_mod' a b
  have hmod : a % b < b := Nat.mod_lt a hb
  have hle : a / b * 1 ≤ a / b * b := Nat.mul_le_mul_left _ hb
  refine ⟨Int.natCast_nonneg _, ?_, ?_, ?_, fun hlt => ?_⟩
  · exact_mod_cast (by omega : a / b * b ≤ a)
  · exact_mod_cast (by omega : a < a / b * b + b)
  · exact_mod_cast (by omega : a / b ≤ a / b * b)
  · -- there is a remainder, so that the denominator is no 1
    have hlt' : a / b * b < a := by exact_mod_cast hlt
    have htwo : a / b * 2 ≤ a / b * b := Nat.mul_le_mul_left _ (by omega)
    exact_mod_cast (by omega : 2 * (a / b) ≤ a / b * b)

/-- The signs of the numerator and the denominator give that of the quotient. -/
theorem tdiv_cases (n : ℤ) (hd : d ≠ 0) :
    (0 ≤ n ∧ 0 < d ∧ Truncates n d (n.tdiv d) (n.tdiv d * d)) ∨
      (n ≤ 0 ∧ 0 < d ∧ Truncates (-n) d (-n.tdiv d) (-(n.tdiv d * d))) ∨
      (0 ≤ n ∧ d < 0 ∧ Truncates n (-d) (-n.tdiv d) (n.tdiv d * d)) ∨
      n ≤ 0 ∧ d < 0 ∧ Truncates (-n) (-d) (n.tdiv d) (-(n.tdiv d * d)) := by
  obtain ⟨a, rfl | rfl⟩ := n.eq_nat_or_neg <;> obtain ⟨b, rfl | rfl⟩ := d.eq_nat_or_neg
  all_goals
    have hb : 0 < b := by omega
    have htruncates := truncates_natCast a hb
    rw [Int.natCast_ediv, ← Int.tdiv_eq_ediv_of_nonneg (Int.natCast_nonneg a)] at htruncates
  · exact .inl ⟨by omega, by omega, htruncates⟩
  · refine .inr (.inr (.inl ⟨by omega, by omega, ?_⟩))
    simpa only [Int.tdiv_neg, Int.neg_neg, Int.neg_mul_neg] using htruncates
  · refine .inr (.inl ⟨by omega, by omega, ?_⟩)
    simpa only [Int.neg_tdiv, Int.neg_neg, Int.neg_mul] using htruncates
  · refine .inr (.inr (.inr ⟨by omega, by omega, ?_⟩))
    simpa only [Int.neg_tdiv, Int.tdiv_neg, Int.neg_neg, Int.mul_neg] using htruncates

/-- The ceiling of a quotient, in integers. -/
theorem ceil_div_eq {k : ℤ}
    (h : 0 < d ∧ k * d - d < n ∧ n ≤ k * d ∨ d < 0 ∧ k * d ≤ n ∧ n < k * d - d) :
    ⌈(n / d : ℚ)⌉ = k := by
  rw [Int.ceil_eq_iff]
  rcases h with ⟨hd, hlo, hhi⟩ | ⟨hd, hlo, hhi⟩
  · have hd' : (0 : ℚ) < d := by exact_mod_cast hd
    have hlo' : (k * d - d : ℚ) < n := by exact_mod_cast hlo
    have hhi' : (n : ℚ) ≤ k * d := by exact_mod_cast hhi
    rw [lt_div_iff₀ hd', div_le_iff₀ hd', sub_mul, one_mul]
    exact ⟨hlo', hhi'⟩
  · have hd' : (d : ℚ) < 0 := by exact_mod_cast hd
    have hlo' : (k * d : ℚ) ≤ n := by exact_mod_cast hlo
    have hhi' : (n : ℚ) < k * d - d := by exact_mod_cast hhi
    rw [lt_div_iff_of_neg hd', div_le_iff_of_neg hd', sub_mul, one_mul]
    exact ⟨hhi', hlo'⟩

/-- The floor is the ceiling of the negation. -/
theorem floor_div_eq {k : ℤ}
    (h : 0 < d ∧ k * d ≤ n ∧ n < k * d + d ∨ d < 0 ∧ k * d + d < n ∧ n ≤ k * d) :
    ⌊(n / d : ℚ)⌋ = k := by
  have hceil : ⌈((-n : ℤ) / d : ℚ)⌉ = -k := by
    apply ceil_div_eq
    rw [Int.neg_mul]
    omega
  rw [Int.cast_neg, neg_div, Int.ceil_neg] at hceil
  omega

end Quotient

/-! ### The steps of the code -/

section Steps

variable {T : IntType} {n d : ℤ}

variable (hn : T.Holds n) (hd : T.Holds d) (hzero : d ≠ 0) (hmin : ¬ (n = T.min ∧ d = -1))

include hn hd hzero hmin

/-- The quotient and its product with the denominator fit. -/
theorem tdiv_holds : T.Holds (n.tdiv d) ∧ T.Holds (n.tdiv d * d) := by
  have hlo := hn.1
  have hhi := hn.2
  rcases tdiv_cases n hzero with ⟨-, -, h⟩ | ⟨-, -, h⟩ | ⟨-, hneg, h⟩ | ⟨-, hneg, h⟩
  all_goals
    have hnonneg := h.nonneg
    have hle := h.le
    have hproduct := h.le_product
  · exact ⟨hn.of_between (by omega), hn.of_between (by omega)⟩
  · exact ⟨hn.of_between (by omega), hn.of_between (by omega)⟩
  · have hsigned := hd.min_eq_of_neg hneg
    exact ⟨⟨by omega, by omega⟩, hn.of_between (by omega)⟩
  · have hsigned := hd.min_eq_of_neg hneg
    refine ⟨⟨by omega, ?_⟩, hn.of_between (by omega)⟩
    by_contra hlarge
    -- only the negation of the least number is as large as that
    have hall : n.tdiv d * d = n.tdiv d * -1 := by omega
    exact hmin ⟨by omega, mul_left_cancel₀ (by omega) hall⟩

/-- The quotient is adjusted where numerator and denominator have one sign, and a remainder is left. -/
theorem ceil_adjusted {k : ℤ}
    (hk : k = n.tdiv d + if n.tdiv d ≥ 0 ∧
      ((d > 0 ∧ n > n.tdiv d * d) ∨ (d < 0 ∧ n < n.tdiv d * d)) then 1 else 0) :
    T.Holds k ∧ ⌈(n / d : ℚ)⌉ = k := by
  have hquotient := (tdiv_holds hn hd hzero hmin).1
  have hlo := hd.1
  have hhi := hn.2
  have hmin₀ := T.min_nonpos
  have hnext : (n.tdiv d + 1) * d = n.tdiv d * d + d := by rw [Int.add_mul, Int.one_mul]
  rcases tdiv_cases n hzero with ⟨hsign, hpos, h⟩ | ⟨hsign, hpos, h⟩ | ⟨hsign, hneg, h⟩ | ⟨hsign, hneg, h⟩
  all_goals
    obtain ⟨hnonneg, hle, hlt, hproduct, hhalf⟩ := h
    split_ifs at hk with hadjust
    all_goals subst hk
  · refine ⟨⟨by omega, by omega⟩, ceil_div_eq (.inl ⟨hpos, ?_, ?_⟩)⟩ <;> rw [hnext] <;> omega
  · rw [Int.add_zero]
    exact ⟨hquotient, ceil_div_eq (.inl ⟨hpos, by omega, by omega⟩)⟩
  · omega
  · rw [Int.add_zero]
    exact ⟨hquotient, ceil_div_eq (.inl ⟨hpos, by omega, by omega⟩)⟩
  · omega
  · rw [Int.add_zero]
    exact ⟨hquotient, ceil_div_eq (.inr ⟨hneg, by omega, by omega⟩)⟩
  · have hsigned := hd.min_eq_of_neg hneg
    have hlo' := hn.1
    refine ⟨⟨by omega, by omega⟩, ceil_div_eq (.inr ⟨hneg, ?_, ?_⟩)⟩ <;> rw [hnext] <;> omega
  · rw [Int.add_zero]
    exact ⟨hquotient, ceil_div_eq (.inr ⟨hneg, by omega, by omega⟩)⟩

/-- The same for the floor, where they have different signs. -/
theorem floor_adjusted {k : ℤ}
    (hk : k = n.tdiv d - if n.tdiv d ≤ 0 ∧
      ((d > 0 ∧ n < n.tdiv d * d) ∨ (d < 0 ∧ n > n.tdiv d * d)) then 1 else 0) :
    T.Holds k ∧ ⌊(n / d : ℚ)⌋ = k := by
  have hquotient := (tdiv_holds hn hd hzero hmin).1
  have hlo := hn.1
  have hhi := hn.2
  have hmax₀ := T.max_nonneg
  have hnext : (n.tdiv d - 1) * d = n.tdiv d * d - d := by rw [Int.sub_mul, Int.one_mul]
  rcases tdiv_cases n hzero with ⟨hsign, hpos, h⟩ | ⟨hsign, hpos, h⟩ | ⟨hsign, hneg, h⟩ | ⟨hsign, hneg, h⟩
  all_goals
    obtain ⟨hnonneg, hle, hlt, hproduct, hhalf⟩ := h
    split_ifs at hk with hadjust
    all_goals subst hk
  · omega
  · rw [Int.sub_zero]
    exact ⟨hquotient, floor_div_eq (.inl ⟨hpos, by omega, by omega⟩)⟩
  · refine ⟨⟨by omega, by omega⟩, floor_div_eq (.inl ⟨hpos, ?_, ?_⟩)⟩ <;> rw [hnext] <;> omega
  · rw [Int.sub_zero]
    exact ⟨hquotient, floor_div_eq (.inl ⟨hpos, by omega, by omega⟩)⟩
  · have hsigned := hd.min_eq_of_neg hneg
    refine ⟨⟨by omega, by omega⟩, floor_div_eq (.inr ⟨hneg, ?_, ?_⟩)⟩ <;> rw [hnext] <;> omega
  · rw [Int.sub_zero]
    exact ⟨hquotient, floor_div_eq (.inr ⟨hneg, by omega, by omega⟩)⟩
  · omega
  · rw [Int.sub_zero]
    exact ⟨hquotient, floor_div_eq (.inr ⟨hneg, by omega, by omega⟩)⟩

end Steps

/-- **The ceiling and the floor of a quotient**, of any type of integers: both are exact, and no quotient,
product, sum or difference on the way leaves the type. -/
theorem ceilOfRatio_floorOfRatio_exact (T : IntType) {n d : ℤ} (hn : T.Holds n) (hd : T.Holds d)
    (hzero : d ≠ 0) (hmin : ¬ (n = T.min ∧ d = -1)) :
    ceilOfRatio T n d = .ok ⌈(n / d : ℚ)⌉ ∧ floorOfRatio T n d = .ok ⌊(n / d : ℚ)⌋ := by
  obtain ⟨hquotient, hproduct⟩ := tdiv_holds hn hd hzero hmin
  obtain ⟨hceil, hceil_eq⟩ := ceil_adjusted hn hd hzero hmin rfl
  obtain ⟨hfloor, hfloor_eq⟩ := floor_adjusted hn hd hzero hmin rfl
  rw [hceil_eq, hfloor_eq]
  constructor
  · rw [ceilOfRatio, ceilOrFloorOfRatio, if_neg hzero, IntType.exact_of_holds hquotient]
    simp only [bind, Except.bind, IntType.exact_of_holds hproduct, if_true]
    exact IntType.exact_of_holds hceil
  · rw [floorOfRatio, ceilOrFloorOfRatio, if_neg hzero, IntType.exact_of_holds hquotient]
    simp only [bind, Except.bind, IntType.exact_of_holds hproduct]
    exact IntType.exact_of_holds hfloor

/-- The least `int8` over the largest. -/
theorem ceilOfRatio_floorOfRatio_exact_int8 :
    ceilOfRatio ⟨true, 8⟩ (-128) 127 = .ok ⌈((-128 : ℤ) / (127 : ℤ) : ℚ)⌉ ∧
      floorOfRatio ⟨true, 8⟩ (-128) 127 = .ok ⌊((-128 : ℤ) / (127 : ℤ) : ℚ)⌋ :=
  ceilOfRatio_floorOfRatio_exact ⟨true, 8⟩ (by decide) (by decide) (by decide) (by decide)

end LearnNetlib.MathUtil
