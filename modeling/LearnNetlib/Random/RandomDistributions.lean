import Mathlib.Data.BitVec
import Mathlib.Tactic.Linarith

/-!
# `random::UniformDistribution` over the integers

* `UniformDistribution.new`, `element`, `call` — the two specialisations of
  `base/random/random_distributions.h`, which differ in their type and in the words of a sample that
  make up a number;
* `element_mem` — one number, when the interval is no wider than the type's largest value;
* **`uniformDistribution_sound_iff`** — the constructor and every call stay within the signed type, and
  within the interval, exactly for such intervals.
-/

namespace LearnNetlib.Random

/-! ### The code -/

/-- The integer types the distribution is specialised for. -/
inductive IntType
  | int32
  | int64
  deriving Repr, DecidableEq

/-- The width of the type. -/
def IntType.bits : IntType → ℕ
  | .int32 => 32
  | .int64 => 64

/-- What the type holds. -/
def IntType.Holds (T : IntType) (x : ℤ) : Prop := -2 ^ (T.bits - 1) ≤ x ∧ x < 2 ^ (T.bits - 1)

instance (T : IntType) (x : ℤ) : Decidable (T.Holds x) := inferInstanceAs (Decidable (_ ∧ _))

namespace UniformDistribution

/-- What may go wrong. -/
inductive Failure
  | signedOverflow
  | divisionByZero
  deriving Repr, DecidableEq

/-- The result of a signed addition or subtraction. -/
def signed (T : IntType) (x : ℤ) : Except Failure ℤ :=
  if T.Holds x then .ok x else .error .signedOverflow

end UniformDistribution

/-- `UniformDistribution<Generator, int32>` and `UniformDistribution<Generator, int64>`. -/
structure UniformDistribution (T : IntType) where
  lo : ℤ
  range : BitVec T.bits
  deriving Repr, DecidableEq

namespace UniformDistribution

variable {T : IntType}

/-- The constructor: a signed difference becomes the unsigned `range_`. -/
def new (T : IntType) (lo hi : ℤ) : Except Failure (UniformDistribution T) := do
  let width ← signed T (hi - lo)
  return ⟨lo, BitVec.ofInt T.bits width⟩

/-- One element of the result: `lo_ + static_cast<T>(bits % range_)`. -/
def element (u : UniformDistribution T) (bits : BitVec T.bits) : Except Failure ℤ :=
  if u.range = 0 then .error .divisionByZero
  else signed T (u.lo + (bits % u.range).toInt)

/-- `sample[2 * i] | static_cast<uint64>(sample[2 * i + 1]) << 32`, for each `i`. -/
def pairs : List (BitVec 32) → List (BitVec 64)
  | x0 :: x1 :: sample => (x0.setWidth 64 ||| x1.setWidth 64 <<< 32) :: pairs sample
  | _ => []

/-- The bits that the elements are made of. -/
def words : (T : IntType) → List (BitVec 32) → List (BitVec T.bits)
  | .int32, sample => sample
  | .int64, sample => pairs sample

/-- `operator()`, on a sample of the generator. -/
def call (u : UniformDistribution T) (sample : List (BitVec 32)) : Except Failure (List ℤ) :=
  (words T sample).mapM u.element

/-! ### What it is for -/

/-- The constructor goes well, and every sample gives as many numbers of the interval as it has words. -/
def Sound (T : IntType) (lo hi : ℤ) : Prop :=
  ∃ u, new T lo hi = .ok u ∧ ∀ sample, ∃ result, u.call sample = .ok result ∧
    result.length = (words T sample).length ∧ ∀ x ∈ result, lo ≤ x ∧ x < hi

/-! ### One number -/

theorem signed_eq_ok {x : ℤ} (h : T.Holds x) : signed T x = .ok x := if_pos h

theorem signed_eq_error {x : ℤ} (h : ¬T.Holds x) : signed T x = .error .signedOverflow := if_neg h

/-- A remainder by a modulus of the type's positive half is not negative as a signed number. -/
theorem toInt_mod {w : ℕ} (bits range : BitVec w) (hpos : 0 < range.toNat)
    (hsmall : 2 * range.toNat < 2 ^ w) : (bits % range).toInt = (bits.toNat % range.toNat : ℕ) := by
  have hlt : bits.toNat % range.toNat < range.toNat := Nat.mod_lt _ hpos
  rw [BitVec.toInt_eq_toNat_of_lt (by rw [BitVec.toNat_umod]; omega), BitVec.toNat_umod]

theorem two_mul_two_pow_bits (T : IntType) : 2 * 2 ^ (T.bits - 1) = 2 ^ T.bits := by
  cases T <;> rfl

/-- **One number**: it is in the interval, and no step on the way leaves the type. -/
theorem element_mem {lo hi : ℤ} (hlo : T.Holds lo) (hhi : T.Holds hi) (hlt : lo < hi)
    (hwidth : hi - lo < 2 ^ (T.bits - 1)) (bits : BitVec T.bits) :
    ∃ x, element ⟨lo, BitVec.ofInt T.bits (hi - lo)⟩ bits = .ok x ∧ lo ≤ x ∧ x < hi := by
  obtain ⟨d, hd⟩ := Int.eq_ofNat_of_zero_le (show 0 ≤ hi - lo by omega)
  have hbits := two_mul_two_pow_bits T
  have hpow : d < 2 ^ (T.bits - 1) := by
    rw [hd] at hwidth
    exact_mod_cast hwidth
  have hrange : (BitVec.ofInt T.bits (hi - lo)).toNat = d := by
    rw [hd]
    simp only [BitVec.ofInt_natCast, BitVec.toNat_ofNat]
    exact Nat.mod_eq_of_lt (by omega)
  have hne : BitVec.ofInt T.bits (hi - lo) ≠ 0 := by
    intro h
    rw [h] at hrange
    simp at hrange
    omega
  have hmod := toInt_mod bits (BitVec.ofInt T.bits (hi - lo)) (by omega) (by omega)
  have hrem : bits.toNat % d < d := Nat.mod_lt _ (by omega)
  rw [hrange] at hmod
  refine ⟨lo + (bits.toNat % d : ℕ), ?_, by omega, by omega⟩
  rw [element, if_neg hne, hmod]
  have hfloor := hlo.1
  have hceil := hhi.2
  exact signed_eq_ok ⟨show _ ≤ lo + _ by omega, show lo + _ < _ by omega⟩

/-! ### A whole sample -/

/-- What holds of each element holds of the result. -/
theorem mapM_ok {α β ε : Type*} {f : α → Except ε β} {P : β → Prop} :
    ∀ l : List α, (∀ a ∈ l, ∃ b, f a = .ok b ∧ P b) →
      ∃ r, l.mapM f = .ok r ∧ r.length = l.length ∧ ∀ b ∈ r, P b
  | [], _ => ⟨[], rfl, rfl, by simp⟩
  | a :: l, h => by
    obtain ⟨b, hb, hP⟩ := h a List.mem_cons_self
    obtain ⟨r, hr, hlen, hall⟩ := mapM_ok l fun a' ha' => h a' (List.mem_cons_of_mem _ ha')
    refine ⟨b :: r, ?_, by rw [List.length_cons, List.length_cons, hlen], ?_⟩
    · rw [List.mapM_cons, hb, hr]
      rfl
    · exact List.forall_mem_cons.mpr ⟨hP, hall⟩

/-- **Exactly the intervals no wider than the type's largest value are sampled as promised.** -/
theorem uniformDistribution_sound_iff (T : IntType) {lo hi : ℤ} (hlo : T.Holds lo) (hhi : T.Holds hi)
    (hlt : lo < hi) : Sound T lo hi ↔ hi - lo < 2 ^ (T.bits - 1) := by
  constructor
  · rintro ⟨u, hu, -⟩
    by_contra hwide
    have hover : ¬T.Holds (hi - lo) := fun h => hwide h.2
    rw [new, signed_eq_error hover] at hu
    cases hu
  · intro hwidth
    have hholds : T.Holds (hi - lo) :=
      ⟨by have : (0 : ℤ) < 2 ^ (T.bits - 1) := by positivity
          omega, hwidth⟩
    refine ⟨⟨lo, BitVec.ofInt T.bits (hi - lo)⟩, ?_, fun sample => ?_⟩
    · rw [new, signed_eq_ok hholds]
      rfl
    · exact mapM_ok _ fun bits _ => element_mem hlo hhi hlt hwidth bits

/-- An interval around zero. -/
theorem uniformDistribution_sound_int64 : Sound .int64 (-2 ^ 62) 7 ↔ (7 : ℤ) - -2 ^ 62 < 2 ^ 63 :=
  uniformDistribution_sound_iff .int64 (by decide) (by decide) (by decide)

/-- All of `int32`: `hi - lo` overflows before it becomes unsigned. -/
theorem uniformDistribution_not_sound_int32 : ¬Sound .int32 (-2 ^ 31) (2 ^ 31 - 1) := by
  rintro ⟨u, hu, -⟩
  cases hu

end UniformDistribution

end LearnNetlib.Random
