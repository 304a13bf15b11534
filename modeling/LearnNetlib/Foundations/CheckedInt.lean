import Mathlib.Algebra.Order.Group.Nat
import Mathlib.Algebra.Order.Ring.Int
import Mathlib.Tactic.Common

/-!
# Integers of a machine type

* `IntType` — signed or unsigned, of any width; `IntType.Holds` — what it holds;
* `IntType.exact` — the result of an operation, if the type holds it;
* `Holds.of_between` — what lies between 0 and a number that is held.
-/

namespace LearnNetlib.CheckedInt

/-- A type of integers. -/
structure IntType where
  isSigned : Bool
  bits : ℕ
  deriving Repr, DecidableEq

namespace IntType

/-- `int`. -/
def int : IntType := ⟨true, 32⟩

/-- `int64`. -/
def int64 : IntType := ⟨true, 64⟩

variable (T : IntType)

def min : ℤ := if T.isSigned then -2 ^ (T.bits - 1) else 0

def max : ℤ := if T.isSigned then 2 ^ (T.bits - 1) - 1 else 2 ^ T.bits - 1

/-- What the type holds. -/
def Holds (x : ℤ) : Prop := T.min ≤ x ∧ x ≤ T.max

instance decidableHolds (x : ℤ) : Decidable (T.Holds x) := inferInstanceAs (Decidable (_ ∧ _))

/-- The result of an operation, if the type holds it. -/
def exact {ε : Type*} (overflow : ε) (x : ℤ) : Except ε ℤ := if T.Holds x then .ok x else .error overflow

variable {T} {ε : Type*} {overflow : ε} {x y : ℤ}

theorem exact_of_holds (h : T.Holds x) : T.exact overflow x = .ok x := if_pos h

theorem exact_of_not_holds (h : ¬ T.Holds x) : T.exact overflow x = .error overflow := if_neg h

/-- The negative half is as large as the positive one, or larger by one. -/
theorem min_eq (T : IntType) : T.min = if T.isSigned then -T.max - 1 else 0 := by
  rw [min, max]
  split_ifs
  · omega
  · rfl

theorem max_nonneg (T : IntType) : 0 ≤ T.max := by
  have hpow (k : ℕ) : (0 : ℤ) < 2 ^ k := by exact_mod_cast Nat.two_pow_pos k
  rw [max]
  split_ifs
  · exact Int.le_sub_one_of_lt (hpow _)
  · exact Int.le_sub_one_of_lt (hpow _)

theorem min_nonpos (T : IntType) : T.min ≤ 0 := by
  have hmax := T.max_nonneg
  rw [min_eq]
  split_ifs <;> omega

/-- A type that holds a negative number is signed. -/
theorem Holds.min_eq_of_neg (h : T.Holds x) (hneg : x < 0) : T.min = -T.max - 1 := by
  have hmin := T.min_eq
  have hlo := h.1
  split_ifs at hmin <;> omega

/-- Between 0 and what is held. -/
theorem Holds.of_between (h : T.Holds x) (hy : 0 ≤ y ∧ y ≤ x ∨ x ≤ y ∧ y ≤ 0) : T.Holds y := by
  have hmin := T.min_nonpos
  have hmax := T.max_nonneg
  obtain ⟨hlo, hhi⟩ := h
  constructor <;> omega

end IntType

end LearnNetlib.CheckedInt
