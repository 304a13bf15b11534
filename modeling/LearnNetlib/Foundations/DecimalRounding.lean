import LearnNetlib.Foundations.Numeral

/-!
# Fractions, rounded

What a processor makes of a quotient, and what is printed of it.

* `Fraction`, `nearest` — the nearest whole number, the even one of two; `nearest_le`;
* `toDouble` — the nearest number with 53 binary digits, for fractions from 1 on; `toDouble_le`: it does not
  pass a power of two;
* `fixed` — so many decimal places; `length_fixed`;
* `significant` — so many decimal digits, and the exponent.
-/

namespace LearnNetlib.DecimalRounding

open Numeral

structure Fraction where
  num : ℕ
  den : ℕ
  den_pos : 0 < den

namespace Fraction

/-- The nearest whole number, and of two the even one. -/
def nearest (x : Fraction) : ℕ :=
  let quotient := x.num / x.den
  let rest := x.num % x.den
  if 2 * rest < x.den ∨ (2 * rest = x.den ∧ quotient % 2 = 0) then quotient else quotient + 1

/-- `x * b ^ (p - e)`, where the exponent may be negative. -/
def shift (x : Fraction) (b p e : ℕ) (hb : 0 < b) : Fraction :=
  ⟨x.num * b ^ (p - e), x.den * b ^ (e - p), Nat.mul_pos x.den_pos (Nat.pow_pos hb)⟩

/-- The nearest number with 53 binary digits, for fractions from 1 on. -/
def toDouble (x : Fraction) : Fraction :=
  let e := Nat.log2 (x.num / x.den)
  ⟨(x.shift 2 52 e (by decide)).nearest * 2 ^ (e - 52), 2 ^ (52 - e), Nat.two_pow_pos _⟩

/-- The digits of the whole part and `p` decimal places. -/
def fixed (p : ℕ) (x : Fraction) : List ℕ × List ℕ :=
  let n := (x.shift 10 p 0 (by decide)).nearest
  (shortest 10 (n / 10 ^ p), numeral 10 p n)

/-- `p` decimal digits and the exponent of the first, for fractions from 1 on. -/
def significant (p : ℕ) (x : Fraction) : List ℕ × ℕ :=
  let e := (shortest 10 (x.num / x.den)).length - 1
  let n := (x.shift 10 (p - 1) e (by decide)).nearest
  if n = 10 ^ p then (numeral 10 p (10 ^ (p - 1)), e + 1) else (numeral 10 p n, e)

variable {x : Fraction}

theorem nearest_le {k : ℕ} (h : x.num ≤ k * x.den) : x.nearest ≤ k := by
  have hdiv := Nat.div_add_mod' x.num x.den
  have hle : x.num / x.den ≤ k := Nat.div_le_of_le_mul (by rwa [Nat.mul_comm])
  rw [nearest]
  split_ifs with hdown
  · exact hle
  · -- at `k` itself there is no rest
    refine Nat.lt_of_le_of_ne hle fun heq => hdown (.inl ?_)
    rw [heq] at hdiv
    have hpos := x.den_pos
    omega

/-- Below a power of two nothing is rounded above it. -/
theorem toDouble_le {k : ℕ} (hk : 0 < k) (h : x.num < 2 ^ k * x.den) :
    x.toDouble.num ≤ 2 ^ k * x.toDouble.den := by
  set e := Nat.log2 (x.num / x.den) with he
  have hquotient : x.num / x.den < 2 ^ k := Nat.div_lt_of_lt_mul (by rwa [Nat.mul_comm] at h)
  have hek : e + 1 ≤ k := by
    by_cases hzero : x.num / x.den = 0
    · rw [he, hzero]
      exact hk
    · exact (Nat.log2_lt hzero).mpr hquotient
  have hlt : x.num < 2 ^ (e + 1) * x.den := (Nat.div_lt_iff_lt_mul x.den_pos).mp Nat.lt_log2_self
  have hpow : 2 ^ (e + 1) * 2 ^ (52 - e) = 2 ^ 53 * 2 ^ (e - 52) := by
    rw [← Nat.pow_add, ← Nat.pow_add]
    congr 1
    omega
  have hround : (x.shift 2 52 e (by decide)).nearest ≤ 2 ^ 53 := by
    refine nearest_le ?_
    calc x.num * 2 ^ (52 - e) ≤ 2 ^ (e + 1) * x.den * 2 ^ (52 - e) := Nat.mul_le_mul_right _ hlt.le
      _ = 2 ^ (e + 1) * 2 ^ (52 - e) * x.den := by ring
      _ = 2 ^ 53 * (x.den * 2 ^ (e - 52)) := by rw [hpow]; ring
  calc (x.shift 2 52 e (by decide)).nearest * 2 ^ (e - 52) ≤ 2 ^ 53 * 2 ^ (e - 52) :=
        Nat.mul_le_mul_right _ hround
    _ = 2 ^ (e + 1) * 2 ^ (52 - e) := hpow.symm
    _ ≤ 2 ^ k * 2 ^ (52 - e) := Nat.mul_le_mul_right _ (Nat.pow_le_pow_right (by decide) hek)

theorem length_fixed {p k m : ℕ} (hk : 0 < k) (hm : m < 10 ^ k) (h : x.num ≤ m * x.den) :
    (x.fixed p).1.length ≤ k ∧ (x.fixed p).2.length = p := by
  have hnearest : (x.shift 10 p 0 (by decide)).nearest ≤ m * 10 ^ p := by
    refine nearest_le ?_
    calc x.num * 10 ^ (p - 0) ≤ m * x.den * 10 ^ (p - 0) := Nat.mul_le_mul_right _ h
      _ = m * 10 ^ p * (x.den * 10 ^ (0 - p)) := by
        rw [Nat.sub_zero, Nat.zero_sub, Nat.pow_zero]
        ring
  refine ⟨length_shortest_le (by decide) hk ?_, numeral_length p _⟩
  exact (Nat.div_le_of_le_mul (by rwa [Nat.mul_comm] at hnearest)).trans_lt hm

end Fraction

end LearnNetlib.DecimalRounding
