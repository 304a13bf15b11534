import Mathlib.Data.Nat.Bitwise
import Mathlib.Tactic.Common

/-!
# Linear feedback shift registers

The algebra behind table-driven checksums, over an arbitrary register width `w` and an arbitrary
feedback polynomial `poly`, in the reflected (least significant bit first) convention.

* `shift` / `shifts` — one, respectively `n`, clocks of the register;
* `shift_xor` / `shifts_xor` — **linearity** over exclusive or;
* `shifts_of_low_zero` — a register whose low `n` bits are clear only moves down;
* `shift_injective` / `shifts_injective` — the register loses nothing when the top bit of `poly` is
  set;
* `absorb` / `absorbAll` — feeding bytes, with the **packing law** `absorbAll_eq_shifts_pack`: a
  short run of bytes may be fed at once as one little-endian word;
* `absorbAll_burst_ne` — the burst law: two streams that differ only inside a window no longer than
  the register leave different registers.

Nothing here mentions a particular checksum.
-/

namespace LearnNetlib.ShiftRegister

variable {w : ℕ}

/-! ### Clocking the register -/

/-- One clock: shift down by one and feed the bit that fell out back through `poly`. -/
def shift (poly l : BitVec w) : BitVec w :=
  (l >>> 1) ^^^ (if l.getLsbD 0 then poly else 0#w)

/-- `n` clocks. -/
def shifts (poly : BitVec w) : ℕ → BitVec w → BitVec w
  | 0, l => l
  | n + 1, l => shifts poly n (shift poly l)

theorem shift_xor (poly a b : BitVec w) :
    shift poly (a ^^^ b) = shift poly a ^^^ shift poly b := by
  simp only [shift, BitVec.ushiftRight_xor_distrib, BitVec.getLsbD_xor]
  cases a.getLsbD 0 <;> cases b.getLsbD 0
  · simp
  · simp [BitVec.xor_assoc]
  · simp only [Bool.bne_false, if_true, Bool.false_eq_true, if_false, BitVec.xor_zero]
    ac_rfl
  · have hcancel : ∀ x y : BitVec w, (x ^^^ poly) ^^^ (y ^^^ poly) = x ^^^ y := by
      intro x y
      rw [BitVec.xor_assoc, BitVec.xor_comm y, ← BitVec.xor_assoc poly, BitVec.xor_self,
        BitVec.zero_xor]
    simp [hcancel]

theorem shifts_xor (poly : BitVec w) (n : ℕ) (a b : BitVec w) :
    shifts poly n (a ^^^ b) = shifts poly n a ^^^ shifts poly n b := by
  induction n generalizing a b with
  | zero => rfl
  | succ n ih => rw [shifts, shift_xor, ih]; rfl

theorem shifts_add (poly : BitVec w) (m n : ℕ) (l : BitVec w) :
    shifts poly (m + n) l = shifts poly n (shifts poly m l) := by
  induction m generalizing l with
  | zero => rw [Nat.zero_add]; rfl
  | succ m ih => rw [Nat.succ_add]; exact ih (shift poly l)

/-- A register whose low `n` bits are clear only moves down. -/
theorem shifts_of_low_zero (poly : BitVec w) (n : ℕ) (l : BitVec w)
    (hl : ∀ i < n, l.getLsbD i = false) : shifts poly n l = l >>> n := by
  induction n generalizing l with
  | zero => simp [shifts]
  | succ n ih =>
    have hstep : shift poly l = l >>> 1 := by
      rw [shift, hl 0 (by omega)]
      simp
    rw [shifts, hstep, ih]
    · rw [← BitVec.shiftRight_add, Nat.add_comm]
    · intro i hi
      rw [BitVec.getLsbD_ushiftRight]
      exact hl (1 + i) (by omega)

/-- Clocking undoes a shift up that lost no bit. -/
theorem shifts_shiftLeft (poly : BitVec w) (n : ℕ) (l : BitVec w)
    (hl : l.toNat < 2 ^ (w - n)) (hn : n ≤ w) : shifts poly n (l <<< n) = l := by
  rw [shifts_of_low_zero]
  · apply BitVec.eq_of_toNat_eq
    have hfit : l.toNat * 2 ^ n < 2 ^ w := by
      calc l.toNat * 2 ^ n < 2 ^ (w - n) * 2 ^ n :=
            Nat.mul_lt_mul_of_pos_right hl (Nat.two_pow_pos n)
        _ = 2 ^ w := by rw [← Nat.pow_add]; congr 1; omega
    rw [BitVec.toNat_ushiftRight, BitVec.toNat_shiftLeft, Nat.shiftLeft_eq,
      Nat.mod_eq_of_lt hfit, Nat.shiftRight_eq_div_pow, Nat.mul_div_cancel _ (Nat.two_pow_pos n)]
  · intro i hi
    simp [hi]

theorem ofNat_low_xor_high (n : ℕ) (l : BitVec w) :
    BitVec.ofNat w (l.toNat % 2 ^ n) ^^^ ((l >>> n) <<< n) = l := by
  apply BitVec.eq_of_getLsbD_eq
  intro i hi
  rw [BitVec.getLsbD_xor, BitVec.getLsbD_ofNat, Nat.testBit_mod_two_pow, BitVec.getLsbD_shiftLeft,
    BitVec.getLsbD_ushiftRight]
  by_cases hin : i < n
  · simp [hi, hin, BitVec.testBit_toNat]
  · simp [hi, hin, show n + (i - n) = i by omega]

/-- **The table law.**  Clocking `n + m` times splits into clocking the low `n` bits that often and
the rest only `m` times. -/
theorem shifts_split (poly : BitVec w) (n m : ℕ) (l : BitVec w) :
    shifts poly (n + m) l
      = shifts poly (n + m) (BitVec.ofNat w (l.toNat % 2 ^ n)) ^^^ shifts poly m (l >>> n) := by
  have hhigh : shifts poly n ((l >>> n) <<< n) = l >>> n := by
    rw [shifts_of_low_zero]
    · apply BitVec.eq_of_getLsbD_eq
      intro i hi
      rw [BitVec.getLsbD_ushiftRight, BitVec.getLsbD_shiftLeft, BitVec.getLsbD_ushiftRight,
        BitVec.getLsbD_ushiftRight]
      by_cases hni : n + i < w
      · simp [hni]
      · simp [BitVec.getLsbD_of_ge l (n + i) (by omega)]
    · intro i hi
      simp [hi]
  calc shifts poly (n + m) l
      = shifts poly (n + m) (BitVec.ofNat w (l.toNat % 2 ^ n) ^^^ ((l >>> n) <<< n)) := by
        rw [ofNat_low_xor_high]
    _ = shifts poly (n + m) (BitVec.ofNat w (l.toNat % 2 ^ n))
          ^^^ shifts poly m (shifts poly n ((l >>> n) <<< n)) := by
        rw [shifts_xor, shifts_add poly n m ((l >>> n) <<< n)]
    _ = _ := by rw [hhigh]

/-! ### The register loses nothing -/

/-- The bit that was fed back is the top bit of the result. -/
theorem shift_msb (poly l : BitVec w) (hp : poly.msb = true) :
    (shift poly l).msb = l.getLsbD 0 := by
  have hw : 0 < w := by
    by_contra h
    have h0 : w = 0 := by omega
    subst h0
    exact absurd hp (by simp [BitVec.msb, BitVec.getMsbD])
  have htop : (l >>> 1).msb = false := by
    rw [BitVec.msb_eq_getLsbD_last, BitVec.getLsbD_ushiftRight]
    exact BitVec.getLsbD_of_ge l _ (by omega)
  rw [shift, BitVec.msb_xor, htop]
  cases l.getLsbD 0 <;> simp [hp]

theorem shift_injective (poly : BitVec w) (hp : poly.msb = true) :
    Function.Injective (shift poly) := by
  intro a b hab
  have hlow : a.getLsbD 0 = b.getLsbD 0 := by
    rw [← shift_msb poly a hp, ← shift_msb poly b hp, hab]
  have hhigh : a >>> 1 = b >>> 1 := by
    rw [shift, shift, hlow] at hab
    exact (BitVec.xor_left_inj _).mp hab
  apply BitVec.eq_of_getLsbD_eq
  intro i _
  cases i with
  | zero => exact hlow
  | succ i =>
    have := congrArg (fun v : BitVec w => v.getLsbD i) hhigh
    simpa [BitVec.getLsbD_ushiftRight, Nat.add_comm] using this

theorem shifts_injective (poly : BitVec w) (hp : poly.msb = true) (n : ℕ) :
    Function.Injective (shifts poly n) := by
  induction n with
  | zero => exact fun a b h => h
  | succ n ih => exact fun a b h => shift_injective poly hp (ih h)

/-! ### Feeding bytes -/

/-- Feed one byte: add it to the low end of the register and clock eight times. -/
def absorb (poly l : BitVec w) (b : BitVec 8) : BitVec w :=
  shifts poly 8 (l ^^^ b.setWidth w)

/-- Feed a list of bytes, first byte first. -/
def absorbAll (poly l : BitVec w) (bs : List (BitVec 8)) : BitVec w :=
  bs.foldl (absorb poly) l

@[simp] theorem absorbAll_nil (poly l : BitVec w) : absorbAll poly l [] = l := rfl

@[simp] theorem absorbAll_cons (poly l : BitVec w) (b : BitVec 8) (bs : List (BitVec 8)) :
    absorbAll poly l (b :: bs) = absorbAll poly (absorb poly l b) bs := rfl

theorem absorbAll_append (poly l : BitVec w) (as bs : List (BitVec 8)) :
    absorbAll poly l (as ++ bs) = absorbAll poly (absorbAll poly l as) bs :=
  List.foldl_append

/-- The little-endian word a list of bytes spells. -/
def pack (w : ℕ) : List (BitVec 8) → BitVec w
  | [] => 0#w
  | b :: bs => b.setWidth w ^^^ (pack w bs <<< 8)

theorem byte_xor_shift_toNat (b : BitVec 8) (x : BitVec w) (hw : 8 ≤ w)
    (hx : x.toNat < 2 ^ (w - 8)) :
    (b.setWidth w ^^^ (x <<< 8)).toNat = b.toNat + 2 ^ 8 * x.toNat := by
  have hfit : x.toNat * 2 ^ 8 < 2 ^ w := by
    calc x.toNat * 2 ^ 8 < 2 ^ (w - 8) * 2 ^ 8 := Nat.mul_lt_mul_of_pos_right hx (by decide)
      _ = 2 ^ w := by rw [← Nat.pow_add]; congr 1; omega
  have hb : b.toNat < 2 ^ w := lt_of_lt_of_le b.isLt (Nat.pow_le_pow_right (by decide) hw)
  have hb8 : b.toNat < 2 ^ 8 := b.isLt
  rw [BitVec.toNat_xor, BitVec.toNat_setWidth, BitVec.toNat_shiftLeft, Nat.shiftLeft_eq,
    Nat.mod_eq_of_lt hb, Nat.mod_eq_of_lt hfit]
  apply Nat.eq_of_testBit_eq
  intro i
  rw [Nat.testBit_xor, Nat.mul_comm x.toNat, Nat.testBit_two_pow_mul, Nat.add_comm,
    Nat.testBit_two_pow_mul_add _ hb8]
  by_cases hi : i < 8
  · simp [hi, show ¬ 8 ≤ i by omega]
  · have hhigh : b.toNat.testBit i = false :=
      Nat.testBit_lt_two_pow (lt_of_lt_of_le hb8 (Nat.pow_le_pow_right (by decide) (by omega)))
    simp [hi, hhigh, show 8 ≤ i by omega]

theorem pack_toNat_lt (bs : List (BitVec 8)) (hw : 8 * bs.length ≤ w) :
    (pack w bs).toNat < 2 ^ (8 * bs.length) := by
  induction bs with
  | nil => simp [pack]
  | cons b bs ih =>
    rw [List.length_cons] at hw
    have hx := ih (by omega)
    have hx' : (pack w bs).toNat < 2 ^ (w - 8) :=
      lt_of_lt_of_le hx (Nat.pow_le_pow_right (by decide) (by omega))
    have hb : b.toNat < 2 ^ 8 := b.isLt
    rw [pack, byte_xor_shift_toNat b _ (by omega) hx', List.length_cons, Nat.mul_succ,
      Nat.pow_add]
    omega

theorem pack_injective (as bs : List (BitVec 8)) (hlen : as.length = bs.length)
    (hw : 8 * as.length ≤ w) (h : pack w as = pack w bs) : as = bs := by
  induction as generalizing bs with
  | nil => exact (List.length_eq_zero_iff.mp hlen.symm).symm
  | cons a as ih =>
    cases bs with
    | nil => simp at hlen
    | cons b bs =>
      simp only [List.length_cons] at hlen hw
      have hlen' : as.length = bs.length := by omega
      have hA := pack_toNat_lt (w := w) as (by omega)
      have hB := pack_toNat_lt (w := w) bs (by omega)
      have hA' : (pack w as).toNat < 2 ^ (w - 8) :=
        lt_of_lt_of_le hA (Nat.pow_le_pow_right (by decide) (by omega))
      have hB' : (pack w bs).toNat < 2 ^ (w - 8) :=
        lt_of_lt_of_le hB (Nat.pow_le_pow_right (by decide) (by omega))
      have hnat := congrArg BitVec.toNat h
      rw [pack, pack, byte_xor_shift_toNat a _ (by omega) hA',
        byte_xor_shift_toNat b _ (by omega) hB'] at hnat
      have ha8 : a.toNat < 2 ^ 8 := a.isLt
      have hb8 : b.toNat < 2 ^ 8 := b.isLt
      have hab : a = b := BitVec.eq_of_toNat_eq (by omega)
      have htail : pack w as = pack w bs := BitVec.eq_of_toNat_eq (by omega)
      rw [hab, ih bs hlen' (by omega) htail]

/-- **The packing law.**  Feeding a run of bytes no longer than the register is adding the word they
spell and clocking once for every bit. -/
theorem absorbAll_eq_shifts_pack (poly l : BitVec w) (bs : List (BitVec 8))
    (hw : 8 * bs.length ≤ w) :
    absorbAll poly l bs = shifts poly (8 * bs.length) (l ^^^ pack w bs) := by
  induction bs generalizing l with
  | nil => simp [pack, shifts]
  | cons b bs ih =>
    rw [List.length_cons] at hw
    have hfit : (pack w bs).toNat < 2 ^ (w - 8) :=
      lt_of_lt_of_le (pack_toNat_lt bs (by omega)) (Nat.pow_le_pow_right (by decide) (by omega))
    calc absorbAll poly l (b :: bs)
        = shifts poly (8 * bs.length) (absorb poly l b ^^^ pack w bs) := ih _ (by omega)
      _ = shifts poly (8 * bs.length)
            (shifts poly 8 (l ^^^ b.setWidth w) ^^^ shifts poly 8 (pack w bs <<< 8)) := by
          rw [shifts_shiftLeft poly 8 _ hfit (by omega), absorb]
      _ = shifts poly (8 * bs.length) (shifts poly 8 (l ^^^ pack w (b :: bs))) := by
          rw [← shifts_xor, pack, BitVec.xor_assoc]
      _ = shifts poly (8 * (b :: bs).length) (l ^^^ pack w (b :: bs)) := by
          rw [← shifts_add, List.length_cons, Nat.mul_succ, Nat.add_comm]

/-! ### What the register can tell apart -/

theorem absorb_injective (poly : BitVec w) (hp : poly.msb = true) (b : BitVec 8) :
    Function.Injective fun l => absorb poly l b := by
  intro l l' h
  exact (BitVec.xor_left_inj _).mp (shifts_injective poly hp 8 h)

/-- Equal bytes preserve a difference between two registers. -/
theorem absorbAll_injective (poly : BitVec w) (hp : poly.msb = true) (bs : List (BitVec 8)) :
    Function.Injective fun l => absorbAll poly l bs := by
  induction bs with
  | nil => exact fun l l' h => h
  | cons b bs ih => exact fun l l' h => absorb_injective poly hp b (ih h)

/-- A register tells any two windows of its own length apart. -/
theorem absorbAll_window_injective (poly l : BitVec w) (hp : poly.msb = true)
    (as bs : List (BitVec 8)) (hlen : as.length = bs.length) (hw : 8 * as.length ≤ w)
    (h : absorbAll poly l as = absorbAll poly l bs) : as = bs := by
  rw [absorbAll_eq_shifts_pack poly l as hw, absorbAll_eq_shifts_pack poly l bs (by omega),
    hlen] at h
  exact pack_injective as bs hlen hw ((BitVec.xor_right_inj _).mp (shifts_injective poly hp _ h))

/-- **The burst law.**  Two streams that differ only inside a window no longer than the register
leave different registers. -/
theorem absorbAll_burst_ne (poly l : BitVec w) (hp : poly.msb = true)
    (pre as bs post : List (BitVec 8)) (hlen : as.length = bs.length) (hw : 8 * as.length ≤ w)
    (hne : as ≠ bs) :
    absorbAll poly l (pre ++ as ++ post) ≠ absorbAll poly l (pre ++ bs ++ post) := by
  intro h
  rw [absorbAll_append, absorbAll_append, absorbAll_append _ _ (pre ++ bs),
    absorbAll_append _ _ pre bs] at h
  exact hne (absorbAll_window_injective poly _ hp as bs hlen hw
    (absorbAll_injective poly hp post h))

end LearnNetlib.ShiftRegister
