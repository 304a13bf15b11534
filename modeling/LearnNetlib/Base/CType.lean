import LearnNetlib.Base.Bytes

/-!
# `ctype.h`, in the C locale
-/

namespace LearnNetlib.CType

/-- `isprint`. -/
def isprint (c : UInt8) : Bool := 0x20 ≤ c ∧ c ≤ 0x7e

/-- `isspace`: space, `\t`, `\n`, `\v`, `\f`, `\r`. -/
def isspace (c : UInt8) : Bool := c = 0x20 ∨ (0x09 ≤ c ∧ c ≤ 0x0d)

/-- `isdigit`. -/
def isdigit (c : UInt8) : Bool := 0x30 ≤ c ∧ c ≤ 0x39

/-- `isalnum`. -/
def isalnum (c : UInt8) : Bool :=
  (0x30 ≤ c ∧ c ≤ 0x39) ∨ (0x41 ≤ c ∧ c ≤ 0x5a) ∨ (0x61 ≤ c ∧ c ≤ 0x7a)

/-- `isxdigit`. -/
def isxdigit (c : UInt8) : Bool :=
  (0x30 ≤ c ∧ c ≤ 0x39) ∨ (0x41 ≤ c ∧ c ≤ 0x46) ∨ (0x61 ≤ c ∧ c ≤ 0x66)

/-- `toupper`. -/
def toupper (c : UInt8) : UInt8 := if 0x61 ≤ c ∧ c ≤ 0x7a then c - 0x20 else c

/-- `tolower`. -/
def tolower (c : UInt8) : UInt8 := if 0x41 ≤ c ∧ c ≤ 0x5a then c + 0x20 else c

/-- Lowering makes letters only, and out of letters only. -/
theorem tolower_eq_iff {c d : UInt8} (hd : d < 0x41) : tolower d = d ∧ (tolower c = d ↔ c = d) := by
  have hbelow : tolower d = d := if_neg fun h => absurd hd (UInt8.not_lt.mpr h.1)
  refine ⟨hbelow, fun h => ?_, fun h => h ▸ hbelow⟩
  rw [tolower] at h
  split_ifs at h with hc
  · exfalso
    rw [← h, UInt8.lt_iff_toNat_lt, UInt8.toNat_add] at hd
    have h₁ := UInt8.le_iff_toNat_le.mp hc.1
    have h₂ := UInt8.le_iff_toNat_le.mp hc.2
    simp only [UInt8.reduceToNat] at hd h₁ h₂
    omega
  · exact h

theorem isdigit_iff (c : UInt8) : isdigit c = true ↔ 48 ≤ c.toNat ∧ c.toNat ≤ 57 := by
  rw [isdigit, decide_eq_true_eq, UInt8.le_iff_toNat_le, UInt8.le_iff_toNat_le]
  rfl

theorem isspace_iff (c : UInt8) : isspace c = true ↔ c.toNat = 32 ∨ (9 ≤ c.toNat ∧ c.toNat ≤ 13) := by
  rw [isspace, decide_eq_true_eq, UInt8.le_iff_toNat_le, UInt8.le_iff_toNat_le, ← UInt8.toNat_inj]
  rfl

end LearnNetlib.CType
