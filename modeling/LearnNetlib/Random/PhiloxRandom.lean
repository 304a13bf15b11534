import LearnNetlib.Base.Bytes
import Mathlib.Logic.Function.Iterate

/-!
# `random::PhiloxRandom`

* `PhiloxRandom.skip`, `skipOne`, `sample` — the code of `base/random/philox_random.h`;
* `value` — the 128 bits of the counter as one number; **`value_skipOne`**, **`value_skip`**: what the two
  add to it, a carry of `skip` being lost where the high half of the count overflows;
* **`skip_loses_no_carry_iff`** — skipping is sampling again and again exactly where no carry is lost,
  and so is skipping twice.
-/

namespace LearnNetlib.Random

/-- `Array<uint32, 4>`. -/
structure ResultType where
  x0 : UInt32
  x1 : UInt32
  x2 : UInt32
  x3 : UInt32
  deriving Repr, DecidableEq

/-- `Key`. -/
structure Key where
  k0 : UInt32
  k1 : UInt32
  deriving Repr, DecidableEq

/-- `PhiloxRandom`. -/
structure PhiloxRandom where
  counter : ResultType
  key : Key
  deriving Repr, DecidableEq

namespace PhiloxRandom

/-! ### The code -/

/-- `SkipOne`. -/
def skipOne (s : PhiloxRandom) : PhiloxRandom :=
  let c : ResultType := { s.counter with x0 := s.counter.x0 + 1 }
  if c.x0 = 0 then
    let c : ResultType := { c with x1 := c.x1 + 1 }
    if c.x1 = 0 then
      let c : ResultType := { c with x2 := c.x2 + 1 }
      if c.x2 = 0 then { s with counter := { c with x3 := c.x3 + 1 } }
      else { s with counter := c }
    else { s with counter := c }
  else { s with counter := c }

/-- `Skip`. -/
def skip (count : UInt64) (s : PhiloxRandom) : PhiloxRandom :=
  let countLo := count.toUInt32
  let countHi := (count >>> 32).toUInt32
  let c : ResultType := { s.counter with x0 := s.counter.x0 + countLo }
  let countHi := if c.x0 < countLo then countHi + 1 else countHi
  let c : ResultType := { c with x1 := c.x1 + countHi }
  if c.x1 < countHi then
    let c : ResultType := { c with x2 := c.x2 + 1 }
    if c.x2 = 0 then { s with counter := { c with x3 := c.x3 + 1 } }
    else { s with counter := c }
  else { s with counter := c }

def kPhiloxW32A : UInt32 := 0x9E3779B9

def kPhiloxW32B : UInt32 := 0xBB67AE85

def kPhiloxM4x32A : UInt32 := 0xD2511F53

def kPhiloxM4x32B : UInt32 := 0xCD9E8D57

/-- `MultiplyHighLow`: the low word and the high word. -/
def multiplyHighLow (a b : UInt32) : UInt32 × UInt32 :=
  let product := a.toUInt64 * b.toUInt64
  (product.toUInt32, (product >>> 32).toUInt32)

/-- `ComputeSingleRound`. -/
def computeSingleRound (counter : ResultType) (key : Key) : ResultType :=
  let (lo0, hi0) := multiplyHighLow kPhiloxM4x32A counter.x0
  let (lo1, hi1) := multiplyHighLow kPhiloxM4x32B counter.x2
  ⟨hi1 ^^^ counter.x1 ^^^ key.k0, lo1, hi0 ^^^ counter.x3 ^^^ key.k1, lo0⟩

/-- `RaiseKey`. -/
def raiseKey (key : Key) : Key := ⟨key.k0 + kPhiloxW32A, key.k1 + kPhiloxW32B⟩

/-- A round, and `n` more of them with raised keys. -/
def computeRounds : ℕ → ResultType → Key → ResultType
  | 0, counter, key => computeSingleRound counter key
  | n + 1, counter, key => computeRounds n (computeSingleRound counter key) (raiseKey key)

/-- `operator()`: ten rounds, and `SkipOne`. -/
def sample (s : PhiloxRandom) : ResultType × PhiloxRandom :=
  (computeRounds 9 s.counter s.key, s.skipOne)

/-- The generator after a number of samples. -/
def sampleN (n : ℕ) (s : PhiloxRandom) : PhiloxRandom := (fun s => (sample s).2)^[n] s

/-! ### The counter -/

/-- The counter. -/
def value (s : PhiloxRandom) : ℕ :=
  s.counter.x0.toNat + 2 ^ 32 * s.counter.x1.toNat + 2 ^ 64 * s.counter.x2.toNat
    + 2 ^ 96 * s.counter.x3.toNat

theorem value_lt (s : PhiloxRandom) : s.value < 2 ^ 128 := by
  have h0 := s.counter.x0.toNat_lt
  have h1 := s.counter.x1.toNat_lt
  have h2 := s.counter.x2.toNat_lt
  have h3 := s.counter.x3.toNat_lt
  rw [value]
  omega

/-- A generator is its counter and its key. -/
theorem ext_value {s t : PhiloxRandom} (hkey : s.key = t.key) (hvalue : s.value = t.value) : s = t := by
  obtain ⟨⟨a0, a1, a2, a3⟩, key⟩ := s
  obtain ⟨⟨b0, b1, b2, b3⟩, key'⟩ := t
  obtain rfl : key = key' := hkey
  simp only [value] at hvalue
  have ha0 := a0.toNat_lt
  have ha1 := a1.toNat_lt
  have ha2 := a2.toNat_lt
  have hb0 := b0.toNat_lt
  have hb1 := b1.toNat_lt
  have hb2 := b2.toNat_lt
  obtain rfl : a0 = b0 := UInt32.toNat_inj.mp (by omega)
  obtain rfl : a1 = b1 := UInt32.toNat_inj.mp (by omega)
  obtain rfl : a2 = b2 := UInt32.toNat_inj.mp (by omega)
  obtain rfl : a3 = b3 := UInt32.toNat_inj.mp (by omega)
  rfl

theorem toNat_add_one (a : UInt32) : (a + 1).toNat = (a.toNat + 1) % 2 ^ 32 := by
  rw [UInt32.toNat_add, UInt32.toNat_one]

theorem add_one_eq_zero_iff (a : UInt32) : a + 1 = 0 ↔ a.toNat + 1 = 2 ^ 32 := by
  have ha := a.toNat_lt
  rw [← UInt32.toNat_inj, toNat_add_one, UInt32.toNat_zero]
  omega

/-- A sum is less than its summand exactly if there is a carry. -/
theorem add_lt_iff (a b : UInt32) : a + b < b ↔ 2 ^ 32 ≤ a.toNat + b.toNat := by
  have ha := a.toNat_lt
  have hb := b.toNat_lt
  rw [UInt32.lt_iff_toNat_lt, UInt32.toNat_add]
  omega

@[simp] theorem key_skipOne (s : PhiloxRandom) : s.skipOne.key = s.key := by
  unfold skipOne
  dsimp only
  split_ifs <;> rfl

/-- **`SkipOne`** adds one. -/
theorem value_skipOne (s : PhiloxRandom) : s.skipOne.value = (s.value + 1) % 2 ^ 128 := by
  have h0 := s.counter.x0.toNat_lt
  have h1 := s.counter.x1.toNat_lt
  have h2 := s.counter.x2.toNat_lt
  have h3 := s.counter.x3.toNat_lt
  unfold skipOne
  simp only [add_one_eq_zero_iff]
  split_ifs <;> simp only [value, toNat_add_one] <;> omega

/-- **Sampling** adds one each time. -/
theorem value_sampleN (n : ℕ) (s : PhiloxRandom) :
    (sampleN n s).value = (s.value + n) % 2 ^ 128 ∧ (sampleN n s).key = s.key := by
  induction n generalizing s with
  | zero => exact ⟨(Nat.mod_eq_of_lt s.value_lt).symm, rfl⟩
  | succ n ih =>
    obtain ⟨hvalue, hkey⟩ := ih s.skipOne
    rw [sampleN, Function.iterate_succ_apply]
    change (sampleN n s.skipOne).value = _ ∧ (sampleN n s.skipOne).key = _
    rw [hvalue, hkey, value_skipOne, Nat.mod_add_mod, key_skipOne]
    exact ⟨by rw [Nat.add_right_comm, Nat.add_assoc], rfl⟩

/-- The carry out of the lowest word makes the high half of the count overflow. -/
def LosesCarry (count : UInt64) (s : PhiloxRandom) : Prop :=
  2 ^ 32 ≤ s.counter.x0.toNat + count.toNat % 2 ^ 32 ∧ count.toNat / 2 ^ 32 = 2 ^ 32 - 1

instance decidableLosesCarry (count : UInt64) (s : PhiloxRandom) : Decidable (LosesCarry count s) :=
  inferInstanceAs (Decidable (_ ∧ _))

@[simp] theorem key_skip (count : UInt64) (s : PhiloxRandom) : (s.skip count).key = s.key := by
  unfold skip
  dsimp only
  split_ifs <;> rfl

/-- **`Skip`** adds the count, but for a carry it loses. -/
theorem value_skip (count : UInt64) (s : PhiloxRandom) :
    (s.skip count).value =
      (s.value + count.toNat + if LosesCarry count s then 2 ^ 128 - 2 ^ 64 else 0) % 2 ^ 128 := by
  have h0 := s.counter.x0.toNat_lt
  have h1 := s.counter.x1.toNat_lt
  have h2 := s.counter.x2.toNat_lt
  have h3 := s.counter.x3.toNat_lt
  have hcount := count.toNat_lt
  have hlo : count.toUInt32.toNat = count.toNat % 2 ^ 32 := UInt64.toNat_toUInt32 count
  have hhi : (count >>> 32).toUInt32.toNat = count.toNat / 2 ^ 32 := by
    rw [UInt64.toNat_toUInt32, UInt64.toNat_shiftRight]
    change count.toNat >>> 32 % 2 ^ 32 = _
    rw [Nat.shiftRight_eq_div_pow]
    omega
  by_cases hlost : LosesCarry count s
  · rw [if_pos hlost]
    obtain ⟨hcarry, hmax⟩ := hlost
    unfold skip
    simp only [add_lt_iff, add_one_eq_zero_iff, hlo, hcarry, if_true]
    split_ifs <;>
      simp only [value, UInt32.toNat_add, UInt32.toNat_one, hlo, hhi] at * <;> omega
  · rw [if_neg hlost]
    unfold LosesCarry at hlost
    unfold skip
    simp only [add_lt_iff, add_one_eq_zero_iff, hlo]
    split_ifs <;>
      simp only [value, UInt32.toNat_add, UInt32.toNat_one, hlo, hhi] at * <;> omega

/-- **Skipping** leaves the generator as that many samples do exactly if no carry is lost. -/
theorem skip_eq_sampleN_iff (count : UInt64) (s : PhiloxRandom) :
    s.skip count = sampleN count.toNat s ↔ ¬ LosesCarry count s := by
  obtain ⟨hvalue, hkey⟩ := value_sampleN count.toNat s
  have hskip := value_skip count s
  constructor
  · intro h hlost
    rw [h, hvalue, if_pos hlost] at hskip
    omega
  · intro hlost
    rw [if_neg hlost, Nat.add_zero] at hskip
    exact ext_value (by rw [key_skip, hkey]) (hskip.trans hvalue.symm)

theorem toNat_x0_skip (count : UInt64) (s : PhiloxRandom) :
    (s.skip count).counter.x0.toNat = (s.counter.x0.toNat + count.toNat % 2 ^ 32) % 2 ^ 32 := by
  have hx0 : (s.skip count).counter.x0 = s.counter.x0 + count.toUInt32 := by
    unfold skip
    dsimp only
    split_ifs <;> rfl
  rw [hx0, UInt32.toNat_add, UInt64.toNat_toUInt32]

/-- **Skipping twice** is skipping once unless the one skip loses a carry that neither of the two does. -/
theorem skip_skip_eq_iff {a b : UInt64} (s : PhiloxRandom) (hsum : a.toNat + b.toNat < 2 ^ 64) :
    (s.skip a).skip b = s.skip (a + b) ↔
      (LosesCarry (a + b) s → LosesCarry a s ∨ LosesCarry b (s.skip a)) := by
  have hadd : (a + b).toNat = a.toNat + b.toNat := by
    rw [UInt64.toNat_add]
    exact Nat.mod_eq_of_lt hsum
  have hx0 := toNat_x0_skip a s
  have hlt := s.counter.x0.toNat_lt
  have hfirst : LosesCarry a s → LosesCarry (a + b) s := by
    rintro ⟨hcarry, hmax⟩
    exact ⟨by omega, by omega⟩
  have hsecond : LosesCarry b (s.skip a) → LosesCarry (a + b) s := by
    rintro ⟨hcarry, hmax⟩
    exact ⟨by omega, by omega⟩
  have hone : LosesCarry a s → ¬ LosesCarry b (s.skip a) := by
    rintro ⟨-, hmax⟩ ⟨-, hmax'⟩
    omega
  have hvalue : (s.skip a).skip b = s.skip (a + b) ↔
      ((s.skip a).skip b).value = (s.skip (a + b)).value :=
    ⟨congrArg value, ext_value (by rw [key_skip, key_skip, key_skip])⟩
  rw [hvalue, value_skip, value_skip, value_skip, hadd]
  by_cases hab : LosesCarry (a + b) s
  · by_cases ha : LosesCarry a s
    · rw [if_pos hab, if_pos ha, if_neg (hone ha)]
      simp only [ha, true_or, imp_true_iff, iff_true]
      omega
    · by_cases hb : LosesCarry b (s.skip a)
      · rw [if_pos hab, if_neg ha, if_pos hb]
        simp only [hb, or_true, imp_true_iff, iff_true]
        omega
      · rw [if_pos hab, if_neg ha, if_neg hb]
        simp only [hab, ha, hb, or_false, imp_false, not_true_eq_false, iff_false]
        omega
  · rw [if_neg hab, if_neg (mt hfirst hab), if_neg (mt hsecond hab)]
    simp only [hab, false_imp_iff, iff_true]
    omega

/-- **`Skip`**: sampling adds one to the 128 bits of the counter each time; skipping leaves the generator as
that many samples do exactly if it loses no carry; and two skips whose counts add up are one skip unless
that loses a carry which neither of the two does. -/
theorem skip_loses_no_carry_iff (s : PhiloxRandom) (a b : UInt64) :
    ((sampleN a.toNat s).value = (s.value + a.toNat) % 2 ^ 128 ∧ (sampleN a.toNat s).key = s.key) ∧
      (s.skip a = sampleN a.toNat s ↔ ¬ LosesCarry a s) ∧
      (a.toNat + b.toNat < 2 ^ 64 → ((s.skip a).skip b = s.skip (a + b) ↔
        (LosesCarry (a + b) s → LosesCarry a s ∨ LosesCarry b (s.skip a)))) :=
  ⟨value_sampleN a.toNat s, skip_eq_sampleN_iff a s, skip_skip_eq_iff s⟩

/-- The counter is 1 and the count 2⁶⁴ - 1, the largest there is: the sum is 2⁶⁴, but the counter becomes 0. -/
theorem skip_ne_sampleN :
    ((⟨⟨1, 0, 0, 0⟩, ⟨0, 0⟩⟩ : PhiloxRandom).skip 18446744073709551615).value = 0 ∧
      (⟨⟨1, 0, 0, 0⟩, ⟨0, 0⟩⟩ : PhiloxRandom).skip 18446744073709551615
        ≠ sampleN (18446744073709551615 : UInt64).toNat ⟨⟨1, 0, 0, 0⟩, ⟨0, 0⟩⟩ := by
  have hvalue : ((⟨⟨1, 0, 0, 0⟩, ⟨0, 0⟩⟩ : PhiloxRandom).skip 18446744073709551615).value = 0 := by
    decide
  refine ⟨hvalue, fun h => ?_⟩
  have hsample := (value_sampleN (18446744073709551615 : UInt64).toNat ⟨⟨1, 0, 0, 0⟩, ⟨0, 0⟩⟩).1
  rw [← h, hvalue] at hsample
  exact absurd hsample (by decide)

end PhiloxRandom

end LearnNetlib.Random
