import Mathlib.Data.Nat.Bitwise
import Mathlib.Tactic.Common
import Mathlib.Tactic.Ring

/-!
# Base-128 numerals

Variable-length numbers, least significant group of seven bits first, with the top bit of a byte
saying that more follow.

* `encode` — the shortest numeral of a natural number;
* `value` — the number a byte string spells;
* `Terminated` — exactly the last byte has its top bit clear;
* `value_encode`, `encode_terminated`, `encode_length_le` — the numeral of `n` is terminated, spells
  `n`, and is as short as `n` allows.
-/

namespace LearnNetlib.Base128

/-- The shortest numeral of `n`. -/
def encode (n : ℕ) : List UInt8 :=
  if n < 128 then [UInt8.ofNat n]
  else UInt8.ofNat (n % 128 + 128) :: encode (n / 128)
termination_by n
decreasing_by omega

/-- The number spelled by a list of groups. -/
def value : List UInt8 → ℕ
  | [] => 0
  | b :: bs => b.toNat % 128 + 128 * value bs

/-- A complete numeral: every byte but the last announces another. -/
def Terminated : List UInt8 → Prop
  | [] => False
  | [b] => b.toNat < 128
  | b :: bs => 128 ≤ b.toNat ∧ Terminated bs

theorem encode_of_lt {n : ℕ} (h : n < 128) : encode n = [UInt8.ofNat n] := by
  rw [encode, if_pos h]

theorem encode_of_ge {n : ℕ} (h : 128 ≤ n) :
    encode n = UInt8.ofNat (n % 128 + 128) :: encode (n / 128) := by
  rw [encode, if_neg (by omega)]

theorem encode_ne_nil (n : ℕ) : encode n ≠ [] := by
  rw [encode]
  split <;> simp

theorem terminated_cons {b : UInt8} {bs : List UInt8} (hb : 128 ≤ b.toNat)
    (h : Terminated bs) : Terminated (b :: bs) := by
  cases bs with
  | nil => exact h.elim
  | cons c cs => exact ⟨hb, h⟩

theorem value_encode (n : ℕ) : value (encode n) = n := by
  induction n using Nat.strongRecOn with
  | ind n ih =>
    rcases Nat.lt_or_ge n 128 with h | h
    · rw [encode_of_lt h]
      simp only [value, UInt8.toNat_ofNat']
      omega
    · rw [encode_of_ge h]
      simp only [value, UInt8.toNat_ofNat', ih (n / 128) (by omega)]
      omega

theorem encode_terminated (n : ℕ) : Terminated (encode n) := by
  induction n using Nat.strongRecOn with
  | ind n ih =>
    rcases Nat.lt_or_ge n 128 with h | h
    · rw [encode_of_lt h]
      simp only [Terminated, UInt8.toNat_ofNat']
      omega
    · rw [encode_of_ge h]
      refine terminated_cons ?_ (ih (n / 128) (by omega))
      rw [UInt8.toNat_ofNat']
      omega

/-- A number below `128 ^ (k + 1)` needs at most `k + 1` groups. -/
theorem encode_length_le (k n : ℕ) (h : n < 128 ^ (k + 1)) : (encode n).length ≤ k + 1 := by
  induction k generalizing n with
  | zero =>
    rw [encode_of_lt (by simpa using h)]
    simp
  | succ k ih =>
    rcases Nat.lt_or_ge n 128 with hn | hn
    · rw [encode_of_lt hn]
      simp
    · rw [encode_of_ge hn, List.length_cons]
      have := ih (n / 128) (Nat.div_lt_of_lt_mul (by rw [pow_succ] at h; omega))
      omega

/-! ### Groups -/

theorem value_append (as bs : List UInt8) :
    value (as ++ bs) = value as + 128 ^ as.length * value bs := by
  induction as with
  | nil => simp [value]
  | cons a as ih =>
    rw [List.cons_append, value, value, ih, List.length_cons, pow_succ]
    ring

theorem value_lt (bs : List UInt8) : value bs < 128 ^ bs.length := by
  induction bs with
  | nil => simp [value]
  | cons b bs ih =>
    rw [value, List.length_cons, pow_succ]
    omega

/-- A complete numeral is groups that announce another, and a last one. -/
theorem terminated_iff {bs : List UInt8} :
    Terminated bs ↔ ∃ init last, bs = init ++ [last] ∧ (∀ b ∈ init, 128 ≤ b.toNat) ∧
      last.toNat < 128 := by
  constructor
  · intro h
    induction bs with
    | nil => exact h.elim
    | cons b bs ih =>
      cases bs with
      | nil => exact ⟨[], b, rfl, by simp, h⟩
      | cons c cs =>
        obtain ⟨init, last, heq, hinit, hlast⟩ := ih h.2
        exact ⟨b :: init, last, by rw [heq]; rfl, List.forall_mem_cons.mpr ⟨h.1, hinit⟩, hlast⟩
  · rintro ⟨init, last, rfl, hinit, hlast⟩
    induction init with
    | nil => exact hlast
    | cons b init ih =>
      rw [List.forall_mem_cons] at hinit
      exact terminated_cons hinit.1 (ih hinit.2)

/-- Cut short, a complete numeral only announces. -/
theorem Terminated.announces {bs pre : List UInt8} (h : Terminated bs) (hpre : pre <+: bs)
    (hne : pre ≠ bs) : ∀ b ∈ pre, 128 ≤ b.toNat := by
  obtain ⟨init, last, rfl, hinit, -⟩ := terminated_iff.mp h
  intro b hb
  rcases List.prefix_concat_iff.mp hpre with heq | hinit'
  · exact absurd heq hne
  · exact hinit b (hinit'.subset hb)

/-- Only the last of `n + 1` groups can take the number to `m * 128 ^ n`. -/
theorem le_value_iff {init : List UInt8} {last : UInt8} (hlast : last.toNat < 128) (m : ℕ) :
    m * 128 ^ init.length ≤ value (init ++ [last]) ↔ m ≤ last.toNat := by
  have hlow := value_lt init
  have hvalue : value (init ++ [last]) = value init + last.toNat * 128 ^ init.length := by
    rw [value_append, value, value, Nat.mod_eq_of_lt hlast, Nat.mul_zero, Nat.add_zero, Nat.mul_comm]
  rw [hvalue]
  constructor
  · intro h
    by_contra hlt
    have hmul : (last.toNat + 1) * 128 ^ init.length ≤ m * 128 ^ init.length :=
      Nat.mul_le_mul_right _ (by omega)
    rw [Nat.succ_mul] at hmul
    omega
  · intro h
    have hmul := Nat.mul_le_mul_right (128 ^ init.length) h
    omega

end LearnNetlib.Base128
