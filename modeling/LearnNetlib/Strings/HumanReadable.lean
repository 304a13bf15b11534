import LearnNetlib.Foundations.CheckedInt
import LearnNetlib.Foundations.DecimalRounding
import LearnNetlib.Strings.FastToBuffer
import LearnNetlib.Strings.Unescape

/-!
# `HumanReadableNum`, `HumanReadableNumBytes`

* `formatD`, `formatF`, `formatG`, `snprintf` — what is used of `printf`;
* `scale`, `humanReadableNum`, `humanReadableNumBytes` — the code of `base/strings/numbers.cc`, stopped by an
  overflow or a `CHECK` that fails;
* `scale_spec` — the unit pointer stays inside;
* `length_bytesText` — what is printed fits its buffer with a sign in front;
* **`renders_iff`** — both functions, for all but the least `int64`.
-/

namespace LearnNetlib.Strings

open CheckedInt DecimalRounding

namespace HumanReadable

/-! ### `printf` -/

/-- `%lld`. -/
def formatD (x : ℤ) : Bytes := if x < 0 then '-'.toUInt8 :: digits x.natAbs else digits x.natAbs

/-- Digits behind a point, if there are any. -/
def behindPoint (ds : List ℕ) : Bytes := if ds = [] then [] else '.'.toUInt8 :: ds.map digitChar

/-- `%.pf` of a number that is not negative. -/
def formatF (p : ℕ) (x : Fraction) : Bytes := (x.fixed p).1.map digitChar ++ behindPoint (x.fixed p).2

/-- Without the zeros at the end. -/
def stripZeros (ds : List ℕ) : List ℕ := (ds.reverse.dropWhile (· == 0)).reverse

/-- `%.pG` of a number from 1 on. -/
def formatG (p : ℕ) (x : Fraction) : Bytes :=
  let (ds, exponent) := x.significant p
  if exponent < p then
    (ds.take (exponent + 1)).map digitChar ++ behindPoint (stripZeros (ds.drop (exponent + 1)))
  else
    (ds.take 1).map digitChar ++ behindPoint (stripZeros (ds.drop 1)) ++ text "E+" ++
      (if exponent < 10 then digits 0 else []) ++ digits exponent

/-- `snprintf` into a buffer of `size` bytes: what is in it before the terminator. -/
def snprintf (size : ℕ) (s : Bytes) : Bytes := s.take (size - 1)

/-! ### The code -/

inductive Failure
  | overflow
  | unitOutside
  deriving Repr, DecidableEq

/-- The loops: the unit pointer is what follows it in its array, which a `CHECK` finds empty at the end. -/
def scale (limit base : ℤ) : Bytes → ℤ → Except Failure (ℤ × UInt8)
  | [], _ => .error .unitOutside
  | unit :: rest, value =>
    if value ≥ limit then do
      let value ← IntType.int64.exact .overflow (value.tdiv base)
      scale limit base rest value
    else .ok (value, unit)

/-- `units` in `HumanReadableNum`. -/
def numUnits : Bytes := text "kMBT"

/-- `units` in `HumanReadableNumBytes`; `int64` only goes up to E. -/
def bytesUnits : Bytes := text "KMGTPE"

/-- `HumanReadableNum`, once the sign is in `s`. -/
def appendNum (s : Bytes) (value : ℤ) : Except Failure Bytes :=
  if value < 1000 then return s ++ formatD value
  else if value ≥ 10 ^ 15 then
    -- Number bigger than 1E15; use that notation.
    return s ++ formatG 3 (Fraction.toDouble ⟨value.natAbs, 1, Nat.one_pos⟩)
  else do
    let (value, unit) ← scale 1000000 1000 (numUnits ++ [0]) value
    return s ++ formatF 2 (Fraction.toDouble ⟨value.natAbs, 1000, by decide⟩) ++ [unit]

/-- `HumanReadableNum`. -/
def humanReadableNum (value : ℤ) : Except Failure Bytes := do
  if value < 0 then
    let value ← IntType.int64.exact .overflow (-value)
    appendNum (text "-") value
  else appendNum [] value

/-- What `HumanReadableNumBytes` prints from 1024 on. -/
def bytesText (numBytes : ℤ) (unit : UInt8) : Bytes :=
  formatF (if unit = 'K'.toUInt8 then 1 else 2) (Fraction.toDouble ⟨numBytes.natAbs, 1024, by decide⟩) ++
    unit :: text "iB"

/-- `HumanReadableNumBytes`, once the sign is in `neg_str`. -/
def printBytes (negStr : Bytes) (numBytes : ℤ) : Except Failure Bytes :=
  -- No fractions for bytes.
  if numBytes < 1024 then return snprintf 8 (negStr ++ formatD numBytes ++ text "B")
  else do
    let (numBytes, unit) ← scale (1024 * 1024) 1024 (bytesUnits ++ [0]) numBytes
    return snprintf 16 (negStr ++ bytesText numBytes unit)

/-- `HumanReadableNumBytes`. -/
def humanReadableNumBytes (numBytes : ℤ) : Except Failure Bytes :=
  -- Special case for number with not representable negation.
  if numBytes = kint64min then return text "-8E"
  else do
    let negStr := if numBytes < 0 then text "-" else []
    let numBytes ← if numBytes < 0 then IntType.int64.exact .overflow (-numBytes) else .ok numBytes
    printBytes negStr numBytes

/-! ### The units -/

theorem int64_holds_iff {x : ℤ} :
    IntType.int64.Holds x ↔ -9223372036854775808 ≤ x ∧ x ≤ 9223372036854775807 := by
  norm_num [IntType.Holds, IntType.min, IntType.max, IntType.int64]

/-- **The unit pointer stays inside.**  From a letter on, of which there are enough, the loop stops at a letter. -/
theorem scale_spec {limit base : ℤ} (hbase : 2 ≤ base) (hlimit : limit = base * base) {letters : Bytes}
    {value : ℤ} (hletters : letters ≠ []) (hnonneg : 0 ≤ value) (hholds : IntType.int64.Holds value)
    (hlt : value < base ^ (letters.length + 1)) :
    ∃ v, ∃ unit ∈ letters, scale limit base (letters ++ [0]) value = .ok (v, unit) ∧ 0 ≤ v ∧ v < limit := by
  induction letters generalizing value with
  | nil => exact absurd rfl hletters
  | cons unit rest ih =>
    rw [List.cons_append, scale]
    by_cases hlarge : value ≥ limit
    · have hdiv : value.tdiv base = value / base := Int.tdiv_eq_ediv_of_nonneg hnonneg
      have hquotient : 0 ≤ value / base ∧ value / base ≤ value :=
        ⟨Int.ediv_nonneg hnonneg (by omega), Int.ediv_le_self base hnonneg⟩
      have hrest : rest ≠ [] := by
        intro hnil
        rw [hnil, List.length_singleton, pow_two, ← hlimit] at hlt
        omega
      have hlt' : value / base < base ^ (rest.length + 1) := by
        refine Int.ediv_lt_of_lt_mul (by omega) ?_
        rwa [List.length_cons, pow_succ] at hlt
      have hholds' := hholds.of_between (.inl hquotient)
      obtain ⟨v, unit', hunit', hscale, hv⟩ := ih hrest hquotient.1 hholds' hlt'
      rw [if_pos hlarge, hdiv, IntType.exact_of_holds hholds']
      exact ⟨v, unit', List.mem_cons_of_mem _ hunit', hscale, hv⟩
    · exact ⟨value, unit, List.mem_cons_self, if_neg hlarge, hnonneg, not_le.mp hlarge⟩

section

variable {value : ℤ} (hnonneg : 0 ≤ value) (hholds : IntType.int64.Holds value)

include hnonneg hholds

theorem scale_numUnits (hlt : value < 10 ^ 15) :
    ∃ v, ∃ unit ∈ numUnits, scale 1000000 1000 (numUnits ++ [0]) value = .ok (v, unit) := by
  have hlt' : value < 1000 ^ (numUnits.length + 1) := by
    rw [show numUnits.length = 4 from rfl]
    omega
  have hlimit : (1000000 : ℤ) = 1000 * 1000 := by decide
  obtain ⟨v, unit, hunit, hscale, -⟩ := scale_spec (by decide) hlimit (by decide) hnonneg hholds hlt'
  exact ⟨v, unit, hunit, hscale⟩

theorem scale_bytesUnits : ∃ v, ∃ unit ∈ bytesUnits,
    scale (1024 * 1024) 1024 (bytesUnits ++ [0]) value = .ok (v, unit) ∧ 0 ≤ v ∧ v < 1024 * 1024 := by
  have hlt : value < 1024 ^ (bytesUnits.length + 1) := by
    have hmax := (int64_holds_iff.mp hholds).2
    rw [show bytesUnits.length = 6 from rfl]
    omega
  exact scale_spec (by decide) rfl (by decide) hnonneg hholds hlt

end

/-! ### The texts -/

theorem length_digits_le {m k : ℕ} (hk : 0 < k) (hm : m < 10 ^ k) : (digits m).length ≤ k := by
  rw [digits, List.length_map]
  exact Numeral.length_shortest_le (by decide) hk hm

theorem length_behindPoint_le (ds : List ℕ) : (behindPoint ds).length ≤ ds.length + 1 := by
  rw [behindPoint]
  split_ifs
  · exact Nat.zero_le _
  · rw [List.length_cons, List.length_map]

/-- At most `1024.00`, and three letters. -/
theorem length_bytesText {numBytes : ℤ} (hnonneg : 0 ≤ numBytes) (hlt : numBytes < 1024 * 1024)
    (unit : UInt8) : (bytesText numBytes unit).length ≤ 10 := by
  set x : Fraction := ⟨numBytes.natAbs, 1024, by decide⟩
  have hle : x.toDouble.num ≤ 1024 * x.toDouble.den :=
    Fraction.toDouble_le (k := 10) (by decide) (show numBytes.natAbs < 2 ^ 10 * 1024 by omega)
  have hfixed (p : ℕ) := Fraction.length_fixed (p := p) (k := 4) (by decide) (by decide) hle
  have hpoint (p : ℕ) := length_behindPoint_le (x.toDouble.fixed p).2
  have hformat (p : ℕ) (hp : p ≤ 2) : (formatF p x.toDouble).length ≤ 7 := by
    have hlength := (hfixed p).2
    have hwhole := (hfixed p).1
    have hplaces := hpoint p
    rw [formatF, List.length_append, List.length_map]
    omega
  have hprecision : (if unit = 'K'.toUInt8 then 1 else 2) ≤ 2 := by split_ifs <;> decide
  have hnumber := hformat _ hprecision
  change (formatF (if unit = 'K'.toUInt8 then 1 else 2) x.toDouble ++ unit :: text "iB").length ≤ 10
  rw [List.length_append, List.length_cons, show (text "iB").length = 2 from rfl]
  omega

theorem snprintf_of_le {size : ℕ} {s : Bytes} (h : s.length ≤ size - 1) : snprintf size s = s :=
  List.take_of_length_le h

/-! ### Both functions -/

section Signs

variable {value : ℤ} (hnonneg : 0 ≤ value) (hholds : IntType.int64.Holds value)

include hnonneg hholds

/-- What is appended does not depend on the sign in front. -/
theorem appendNum_eq : ∃ s, ∀ sign, appendNum sign value = .ok (sign ++ s) := by
  by_cases hsmall : value < 1000
  · exact ⟨formatD value, fun sign => if_pos hsmall⟩
  · by_cases hlarge : value ≥ 10 ^ 15
    · exact ⟨_, fun sign => by rw [appendNum, if_neg hsmall, if_pos hlarge]; rfl⟩
    · obtain ⟨v, unit, -, hscale⟩ := scale_numUnits hnonneg hholds (not_le.mp hlarge)
      refine ⟨formatF 2 (Fraction.toDouble ⟨v.natAbs, 1000, by decide⟩) ++ [unit], fun sign => ?_⟩
      rw [appendNum, if_neg hsmall, if_neg hlarge, hscale, ← List.append_assoc]
      rfl

/-- Nor does what is printed, which fits its buffer. -/
theorem printBytes_eq : ∃ s, ∀ sign : Bytes, sign.length ≤ 1 → printBytes sign value = .ok (sign ++ s) := by
  by_cases hsmall : value < 1024
  · refine ⟨formatD value ++ text "B", fun sign hsign => ?_⟩
    have hdigits : (formatD value).length ≤ 4 := by
      rw [formatD, if_neg (not_lt.mpr hnonneg)]
      exact length_digits_le (by decide) (by omega)
    rw [printBytes, if_pos hsmall, List.append_assoc, snprintf_of_le]
    · rfl
    · rw [List.length_append, List.length_append, show (text "B").length = 1 from rfl]
      omega
  · obtain ⟨v, unit, -, hscale, hv, hvlt⟩ := scale_bytesUnits hnonneg hholds
    refine ⟨bytesText v unit, fun sign hsign => ?_⟩
    have hlength := length_bytesText hv hvlt unit
    rw [printBytes, if_neg hsmall, hscale]
    have hfits : (sign ++ bytesText v unit).length ≤ 16 - 1 := by
      rw [List.length_append]
      omega
    exact congrArg Except.ok (snprintf_of_le hfits)

end Signs

/-! ### What is promised -/

/-- No overflow and no `CHECK` that fails; each loop stops at a letter of its unit string; and a negative number is
rendered as `-` and what its magnitude is. -/
structure Renders (value : ℤ) : Prop where
  num : ∃ s, humanReadableNum value = .ok s
  bytes : ∃ s, humanReadableNumBytes value = .ok s
  numUnit : 1000 ≤ |value| → |value| < 10 ^ 15 →
    ∃ v, ∃ unit ∈ numUnits, scale 1000000 1000 (numUnits ++ [0]) |value| = .ok (v, unit)
  bytesUnit : 1024 ≤ |value| →
    ∃ v, ∃ unit ∈ bytesUnits, scale (1024 * 1024) 1024 (bytesUnits ++ [0]) |value| = .ok (v, unit)
  negNum : value < 0 →
    ∃ s, humanReadableNum (-value) = .ok s ∧ humanReadableNum value = .ok (text "-" ++ s)
  negBytes : value < 0 →
    ∃ s, humanReadableNumBytes (-value) = .ok s ∧ humanReadableNumBytes value = .ok (text "-" ++ s)

section Functions

variable {value : ℤ}

theorem humanReadableNum_of_nonneg (hnonneg : 0 ≤ value) : humanReadableNum value = appendNum [] value :=
  if_neg (not_lt.mpr hnonneg)

theorem humanReadableNum_of_neg (hneg : value < 0) (hholds : IntType.int64.Holds (-value)) :
    humanReadableNum value = appendNum (text "-") (-value) := by
  rw [humanReadableNum, if_pos hneg, IntType.exact_of_holds hholds]
  rfl

theorem humanReadableNumBytes_of_nonneg (hnonneg : 0 ≤ value) :
    humanReadableNumBytes value = printBytes [] value := by
  have hne : value ≠ kint64min := by
    rw [kint64min]
    omega
  rw [humanReadableNumBytes, if_neg hne]
  simp only [if_neg (not_lt.mpr hnonneg)]
  rfl

theorem humanReadableNumBytes_of_neg (hneg : value < 0) (hholds : IntType.int64.Holds (-value)) :
    humanReadableNumBytes value = printBytes (text "-") (-value) := by
  have hne : value ≠ kint64min := by
    have hmax := (int64_holds_iff.mp hholds).2
    rw [kint64min]
    omega
  rw [humanReadableNumBytes, if_neg hne]
  simp only [if_pos hneg]
  rw [IntType.exact_of_holds hholds]
  rfl

/-- A number and its negation, neither of which is the least one. -/
theorem renders_of_nonneg (hnonneg : 0 ≤ value) (hholds : IntType.int64.Holds value) :
    Renders value ∧ (value ≠ 0 → Renders (-value)) := by
  obtain ⟨num, hnum⟩ := appendNum_eq hnonneg hholds
  obtain ⟨bytes, hbytes⟩ := printBytes_eq hnonneg hholds
  have hnumUnit := fun _ : 1000 ≤ |value| => scale_numUnits (abs_nonneg value) (by rwa [abs_of_nonneg hnonneg])
  have hbytesUnit : ∃ v, ∃ unit ∈ bytesUnits,
      scale (1024 * 1024) 1024 (bytesUnits ++ [0]) |value| = .ok (v, unit) := by
    rw [abs_of_nonneg hnonneg]
    obtain ⟨v, unit, hunit, hscale, -⟩ := scale_bytesUnits hnonneg hholds
    exact ⟨v, unit, hunit, hscale⟩
  have hnumOk : humanReadableNum value = .ok num :=
    (humanReadableNum_of_nonneg hnonneg).trans (hnum [])
  have hbytesOk : humanReadableNumBytes value = .ok bytes :=
    (humanReadableNumBytes_of_nonneg hnonneg).trans (hbytes [] (by decide))
  refine ⟨⟨⟨num, hnumOk⟩, ⟨bytes, hbytesOk⟩, hnumUnit, fun _ => hbytesUnit,
    fun hneg => absurd hneg (not_lt.mpr hnonneg), fun hneg => absurd hneg (not_lt.mpr hnonneg)⟩, fun hne => ?_⟩
  have hneg : -value < 0 := by omega
  have hholds' : IntType.int64.Holds (- -value) := by rwa [neg_neg]
  have hnumNeg : humanReadableNum (-value) = .ok (text "-" ++ num) := by
    rw [humanReadableNum_of_neg hneg hholds', neg_neg]
    exact hnum _
  have hbytesNeg : humanReadableNumBytes (-value) = .ok (text "-" ++ bytes) := by
    rw [humanReadableNumBytes_of_neg hneg hholds', neg_neg]
    exact hbytes _ (by decide)
  refine ⟨⟨_, hnumNeg⟩, ⟨_, hbytesNeg⟩, ?_, ?_, fun _ => ⟨num, ?_, hnumNeg⟩, fun _ => ⟨bytes, ?_, hbytesNeg⟩⟩
  · rwa [abs_neg]
  · rw [abs_neg]
    exact fun _ => hbytesUnit
  · rwa [neg_neg]
  · rwa [neg_neg]

/-- **`HumanReadableNum` and `HumanReadableNumBytes`** keep what is promised for every `int64` but the least:
the second treats it apart, the first negates it. -/
theorem renders_iff (hholds : IntType.int64.Holds value) : Renders value ↔ value ≠ kint64min := by
  constructor
  · intro h hmin
    obtain ⟨s, hs⟩ := h.num
    rw [hmin] at hs
    cases hs
  · intro hmin
    obtain ⟨hlo, hhi⟩ := int64_holds_iff.mp hholds
    rw [kint64min] at hmin
    by_cases hnonneg : 0 ≤ value
    · exact (renders_of_nonneg hnonneg hholds).1
    · have hholds' : IntType.int64.Holds (-value) := int64_holds_iff.mpr (by omega)
      have hrenders := (renders_of_nonneg (by omega) hholds').2 (by omega)
      rwa [neg_neg] at hrenders

end Functions

theorem renders_iff_million : Renders (-12345678) ↔ (-12345678 : ℤ) ≠ kint64min := renders_iff (by decide)

/-- The least `int64` has no negation. -/
theorem not_renders_min : IntType.int64.Holds kint64min ∧ ¬ Renders kint64min := by
  refine ⟨by decide, fun h => ?_⟩
  obtain ⟨s, hs⟩ := h.num
  cases hs

example : humanReadableNum 999499 = .ok (text "999.50k") := by decide +kernel

example : humanReadableNumBytes (-12345678) = .ok (text "-11.77MiB") := by decide +kernel

end HumanReadable

end LearnNetlib.Strings
