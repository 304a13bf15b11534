import LearnNetlib.Strings.Numbers

/-!
# `ConsumeLeadingDigits`

* `consumeLeadingDigits` — the code of `base/strings/str_util.cc`;
* `overflow_iff` — the test on the wrapped value finds every overflow, and nothing else;
* **`consumeLeadingDigits_spec`** — the leading digits are consumed if their number is below `2 ^ 64`.
-/

namespace LearnNetlib.Strings

open CType

/-! ### The code -/

/-- The loop: `*s` from `p` on, and `v`; nothing if an overflow has occurred. A character from `0x80` on is
negative in the code, and no digit either way. -/
def leadingDigitsLoop : Bytes → UInt64 → Option (Bytes × UInt64)
  | [], v => some ([], v)
  | c :: s, v =>
    if c < '0'.toUInt8 ∨ c > '9'.toUInt8 then some (c :: s, v)
    else
      let newV := v * 10 + (c.toUInt64 - '0'.toUInt8.toUInt64)
      if newV / 8 < v then none else leadingDigitsLoop s newV

/-- `ConsumeLeadingDigits`: what is returned, `*s` and `*val`. -/
def consumeLeadingDigits (s : Bytes) (val : UInt64) : Bool × Bytes × UInt64 :=
  match leadingDigitsLoop s 0 with
  | none => (false, s, val)
  | some (rest, v) => if rest.length < s.length then (true, rest, v) else (false, s, val)

/-! ### What is consumed -/

/-- The longest run of digits at the beginning. -/
def leadingRun (s : Bytes) : Bytes := s.takeWhile isdigit

theorem not_digit_iff (c : UInt8) : (c < '0'.toUInt8 ∨ c > '9'.toUInt8) ↔ ¬ isdigit c = true := by
  rw [isdigit_iff, gt_iff_lt, UInt8.lt_iff_toNat_lt, UInt8.lt_iff_toNat_lt]
  show c.toNat < 48 ∨ 57 < c.toNat ↔ _
  omega

/-- One more digit, modulo `2 ^ 64`. -/
theorem toNat_digit_step {c : UInt8} (hc : isdigit c = true) (v : UInt64) :
    (v * 10 + (c.toUInt64 - '0'.toUInt8.toUInt64)).toNat = (v.toNat * 10 + digitValue c) % 2 ^ 64 := by
  have hrange := (isdigit_iff c).mp hc
  have hvalue : digitValue c = c.toNat - 48 := rfl
  rw [UInt64.toNat_add, UInt64.toNat_mul, UInt64.toNat_sub, UInt8.toNat_toUInt64]
  show (v.toNat * 10 % 2 ^ 64 + (2 ^ 64 - 48 + c.toNat) % 2 ^ 64) % 2 ^ 64 = _
  omega

/-- **The test after the fact** is exact. -/
theorem overflow_iff {m d : ℕ} (hd : d ≤ 9) :
    (m * 10 + d) % 2 ^ 64 / 8 < m ↔ 2 ^ 64 ≤ m * 10 + d := by
  omega

/-- The loop from the digits `done` on. -/
theorem leadingDigitsLoop_eq (s done : Bytes) {v : UInt64} (hv : v.toNat = decimal done) :
    (2 ^ 64 ≤ decimal (done ++ leadingRun s) ∧ leadingDigitsLoop s v = none) ∨
      ∃ v', v'.toNat = decimal (done ++ leadingRun s) ∧
        leadingDigitsLoop s v = some (s.dropWhile isdigit, v') := by
  induction s generalizing done v with
  | nil => exact .inr ⟨v, by rw [hv, leadingRun, List.takeWhile_nil, List.append_nil], rfl⟩
  | cons c s ih =>
    by_cases hc : isdigit c = true
    · have hrun : leadingRun (c :: s) = c :: leadingRun s := List.takeWhile_cons_of_pos hc
      have hstep := toNat_digit_step hc v
      obtain ⟨-, -, hdigit⟩ := digit_eq hc
      have hsnoc := decimal_snoc done c
      rw [← hv] at hsnoc
      have htest : (v * 10 + (c.toUInt64 - '0'.toUInt8.toUInt64)) / 8 < v ↔
          2 ^ 64 ≤ decimal (done ++ [c]) := by
        rw [UInt64.lt_iff_toNat_lt, UInt64.toNat_div, hstep, hsnoc]
        exact overflow_iff hdigit
      rw [leadingDigitsLoop, if_neg (mt (not_digit_iff c).mp (not_not.mpr hc)), hrun,
        List.dropWhile_cons_of_pos hc, List.append_cons]
      by_cases hover : 2 ^ 64 ≤ decimal (done ++ [c])
      · -- more digits make no smaller number
        refine .inl ⟨hover.trans (decimal_le_append _ _), ?_⟩
        exact if_pos (htest.mpr hover)
      · dsimp only
        rw [if_neg (mt htest.mp hover)]
        refine ih (done ++ [c]) ?_
        rw [hstep, hsnoc]
        exact Nat.mod_eq_of_lt (by omega)
    · refine .inr ⟨v, ?_, ?_⟩
      · rw [hv, leadingRun, List.takeWhile_cons_of_neg hc, List.append_nil]
      · rw [leadingDigitsLoop, if_pos ((not_digit_iff c).mpr hc), List.dropWhile_cons_of_neg hc]

theorem length_dropWhile_lt_iff (s : Bytes) :
    (s.dropWhile isdigit).length < s.length ↔ leadingRun s ≠ [] := by
  have hlength := congrArg List.length (@List.takeWhile_append_dropWhile _ isdigit s)
  rw [List.length_append] at hlength
  rw [leadingRun, ← List.length_pos_iff]
  omega

/-- **The leading digits are consumed** if there are any and their number is below `2 ^ 64`; otherwise
nothing changes. -/
theorem consumeLeadingDigits_spec (s : Bytes) (val : UInt64) :
    (leadingRun s ≠ [] ∧ decimal (leadingRun s) < 2 ^ 64 → ∃ (rest : Bytes) (v : UInt64),
        consumeLeadingDigits s val = (true, rest, v) ∧ s = leadingRun s ++ rest ∧
          v.toNat = decimal (leadingRun s)) ∧
      (¬ (leadingRun s ≠ [] ∧ decimal (leadingRun s) < 2 ^ 64) →
        consumeLeadingDigits s val = (false, s, val)) := by
  rcases leadingDigitsLoop_eq s [] (rfl : (0 : UInt64).toNat = 0) with ⟨hover, hloop⟩ | ⟨v, hv, hloop⟩
  · rw [List.nil_append] at hover
    rw [consumeLeadingDigits, hloop]
    exact ⟨fun h => absurd hover (Nat.not_le.mpr h.2), fun _ => rfl⟩
  · rw [List.nil_append] at hv
    have hlt := v.toNat_lt
    rw [hv] at hlt
    rw [consumeLeadingDigits, hloop]
    constructor
    · rintro ⟨hrun, -⟩
      refine ⟨s.dropWhile isdigit, v, if_pos ((length_dropWhile_lt_iff s).mpr hrun), ?_, hv⟩
      exact List.takeWhile_append_dropWhile.symm
    · intro h
      exact if_neg fun hrun => h ⟨(length_dropWhile_lt_iff s).mp hrun, hlt⟩

end LearnNetlib.Strings
