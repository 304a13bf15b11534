import LearnNetlib.Strings.FastToBuffer
import LearnNetlib.Strings.Unescape

/-!
# Hex numerals: `HexStringToUint64`, `Uint64ToHexString` and `AlphaNum(Hex)`

* `hexStringToUint64`, `uint64ToHexString` — the code of `base/strings/numbers.cc`;
* `alphaNumHex` — the code of `base/strings/strcat.cc`;
* `hexStringLoop_eq` — the accumulator is the number modulo `2 ^ 64`;
* **`hexStringToUint64_iff`** — so numbers from `2 ^ 64` on slip through, and only these;
* `loop_hexTurn` — as many digits are written as the mask has;
* **`alphaNumHex_spec`** — the padded numeral, in the buffer, read back, and the fixed width beside it.
-/

namespace LearnNetlib.Strings

open ObjectStorage

/-! ### The code -/

/-- The loop of `HexStringToUint64`. -/
def hexStringLoop : Bytes → UInt64 → Option UInt64
  | [], v => some v
  | c :: s, v =>
    if '0'.toUInt8 ≤ c ∧ c ≤ '9'.toUInt8 then
      hexStringLoop s ((v <<< 4) + (c.toUInt64 - '0'.toUInt8.toUInt64))
    else if 'a'.toUInt8 ≤ c ∧ c ≤ 'f'.toUInt8 then
      hexStringLoop s ((v <<< 4) + 10 + (c.toUInt64 - 'a'.toUInt8.toUInt64))
    else if 'A'.toUInt8 ≤ c ∧ c ≤ 'F'.toUInt8 then
      hexStringLoop s ((v <<< 4) + 10 + (c.toUInt64 - 'A'.toUInt8.toUInt64))
    else none

/-- `HexStringToUint64`: what is returned, and `*result`. -/
def hexStringToUint64 (s : Bytes) (result : UInt64) : Bool × UInt64 :=
  if s = [] then (false, result)
  else
    match hexStringLoop s 0 with
    | none => (false, result)
    | some v => (true, v)

/-- `hexdigits[v & 0xf]`. -/
def hexdigit (v : UInt64) : UInt8 :=
  ("0123456789abcdef".toList.map Char.toUInt8).getD (v &&& 0xf).toNat 0

/-- The loop of `Uint64ToHexString`, for `i` from below the first argument down to 0. -/
def toHexLoop : ℕ → UInt64 → Bytes → Access Bytes
  | 0, _, buf => .ok buf
  | i + 1, v, buf => do
    let buf ← writeByte buf i (hexdigit v)
    toHexLoop i (v >>> 4) buf

/-- `Uint64ToHexString`: what the result holds. -/
def uint64ToHexString (v : UInt64) (buf : Bytes) : Access Bytes := do
  let buf ← writeByte buf 16 0
  let buf ← toHexLoop 16 v buf
  readBytes buf 0 16

/-- `PadSpec`. -/
inductive PadSpec
  | noPad
  | zeroPad2
  | zeroPad3
  | zeroPad4
  | zeroPad5
  | zeroPad6
  | zeroPad7
  | zeroPad8
  | zeroPad9
  | zeroPad10
  | zeroPad11
  | zeroPad12
  | zeroPad13
  | zeroPad14
  | zeroPad15
  | zeroPad16
  deriving Repr, DecidableEq

/-- The number behind the name, from `NO_PAD = 1` on. -/
def PadSpec.width : PadSpec → ℕ
  | noPad => 1
  | zeroPad2 => 2
  | zeroPad3 => 3
  | zeroPad4 => 4
  | zeroPad5 => 5
  | zeroPad6 => 6
  | zeroPad7 => 7
  | zeroPad8 => 8
  | zeroPad9 => 9
  | zeroPad10 => 10
  | zeroPad11 => 11
  | zeroPad12 => 12
  | zeroPad13 => 13
  | zeroPad14 => 14
  | zeroPad15 => 15
  | zeroPad16 => 16

/-- `Hex`. -/
structure Hex where
  value : UInt64
  spec : PadSpec
  deriving Repr, DecidableEq

/-- The variables of the loop of `AlphaNum(Hex)`; `writer` is an offset into `digits_`. -/
structure HexWriter where
  digits : Bytes
  writer : ℕ
  value : UInt64
  mask : UInt64
  deriving Repr, DecidableEq

/-- The body of the loop, then its test. -/
def hexTurn (s : HexWriter) : Access (HexWriter ⊕ Bytes × ℕ) :=
  match s.writer with
  | 0 => .error .outOfBounds
  | writer + 1 => do
    let digits ← writeByte s.digits writer (hexdigit s.value)
    let mask := s.mask >>> 4
    if mask ≠ 0 then return .inl ⟨digits, writer, s.value >>> 4, mask⟩ else return .inr (digits, writer)

/-- `AlphaNum(Hex)`: what `piece_` holds, given what `digits_` holds before. -/
def alphaNumHex (digits : Bytes) (hex : Hex) : Access Bytes := do
  let width := UInt64.ofNat hex.spec.width
  -- 0x10000 is the smallest hex number that is as wide as the user asked for.
  let mask := (1 <<< ((width - 1) * 4)) ||| hex.value
  let (digits, writer) ← Loops.loop .stillRunning hexTurn (kFastToBufferSize + 1)
    ⟨digits, kFastToBufferSize, hex.value, mask⟩
  readBytes digits writer (kFastToBufferSize - writer)

/-! ### Reading -/

/-- The number that hex digits spell. -/
def hexValue (ds : Bytes) : ℕ := Numeral.value 16 (ds.map hexDigit)

theorem hexValue_snoc (ds : Bytes) (c : UInt8) : hexValue (ds ++ [c]) = hexValue ds * 16 + hexDigit c := by
  rw [hexValue, List.map_append]
  exact Numeral.value_snoc _ _

theorem hexDigit_eq_zero_iff {c : UInt8} (hc : asciiIsxdigit c = true) :
    hexDigit c = 0 ↔ c = '0'.toUInt8 := by
  have hcases := hexDigit_cases hc
  rw [← UInt8.toNat_inj]
  show _ ↔ c.toNat = 48
  omega

/-- Another digit at the end, modulo `2 ^ 64`. -/
theorem hexStringLoop_cons {c : UInt8} (hc : asciiIsxdigit c = true) (s : Bytes) (v : UInt64) :
    ∃ v', hexStringLoop (c :: s) v = hexStringLoop s v' ∧
      v'.toNat = (v.toNat * 16 + hexDigit c) % 2 ^ 64 := by
  have hshift : (v <<< 4).toNat = v.toNat * 16 % 2 ^ 64 := by
    rw [UInt64.toNat_shiftLeft, Nat.shiftLeft_eq]
    rfl
  have hdigit : '0'.toUInt8 ≤ c ∧ c ≤ '9'.toUInt8 ↔ 48 ≤ c.toNat ∧ c.toNat ≤ 57 :=
    and_congr UInt8.le_iff_toNat_le UInt8.le_iff_toNat_le
  have hlower : 'a'.toUInt8 ≤ c ∧ c ≤ 'f'.toUInt8 ↔ 97 ≤ c.toNat ∧ c.toNat ≤ 102 :=
    and_congr UInt8.le_iff_toNat_le UInt8.le_iff_toNat_le
  have hupper : 'A'.toUInt8 ≤ c ∧ c ≤ 'F'.toUInt8 ↔ 65 ≤ c.toNat ∧ c.toNat ≤ 70 :=
    and_congr UInt8.le_iff_toNat_le UInt8.le_iff_toNat_le
  rw [hexStringLoop]
  rcases hexDigit_cases hc with ⟨hrange, hvalue⟩ | ⟨hrange, hvalue⟩ | ⟨hrange, hvalue⟩
  · refine ⟨_, if_pos (hdigit.mpr hrange), ?_⟩
    rw [UInt64.toNat_add, hshift, UInt64.toNat_sub, UInt8.toNat_toUInt64, hvalue]
    show (v.toNat * 16 % 2 ^ 64 + (2 ^ 64 - 48 + c.toNat) % 2 ^ 64) % 2 ^ 64 = _
    omega
  · rw [if_neg (mt hdigit.mp (by omega))]
    refine ⟨_, if_pos (hlower.mpr hrange), ?_⟩
    rw [UInt64.toNat_add, UInt64.toNat_add, hshift, UInt64.toNat_sub, UInt8.toNat_toUInt64, hvalue]
    show ((v.toNat * 16 % 2 ^ 64 + 10) % 2 ^ 64 + (2 ^ 64 - 97 + c.toNat) % 2 ^ 64) % 2 ^ 64 = _
    omega
  · rw [if_neg (mt hdigit.mp (by omega)), if_neg (mt hlower.mp (by omega))]
    refine ⟨_, if_pos (hupper.mpr hrange), ?_⟩
    rw [UInt64.toNat_add, UInt64.toNat_add, hshift, UInt64.toNat_sub, UInt8.toNat_toUInt64, hvalue]
    show ((v.toNat * 16 % 2 ^ 64 + 10) % 2 ^ 64 + (2 ^ 64 - 65 + c.toNat) % 2 ^ 64) % 2 ^ 64 = _
    omega

theorem hexStringLoop_stuck {c : UInt8} (hc : ¬ asciiIsxdigit c = true) (s : Bytes) (v : UInt64) :
    hexStringLoop (c :: s) v = none := by
  rw [asciiIsxdigit, decide_eq_true_eq, not_or, not_or] at hc
  rw [hexStringLoop, if_neg hc.1, if_neg hc.2.1, if_neg hc.2.2]

/-- The loop from the digits `done` on. -/
theorem hexStringLoop_eq {s : Bytes} (hs : ∀ c ∈ s, asciiIsxdigit c = true) (done : Bytes) {v : UInt64}
    (hv : v.toNat = hexValue done % 2 ^ 64) :
    ∃ v', hexStringLoop s v = some v' ∧ v'.toNat = hexValue (done ++ s) % 2 ^ 64 := by
  induction s generalizing done v with
  | nil => exact ⟨v, rfl, by rw [List.append_nil, hv]⟩
  | cons c s ih =>
    rw [List.forall_mem_cons] at hs
    obtain ⟨v', hstep, hv'⟩ := hexStringLoop_cons hs.1 s v
    rw [hstep, List.append_cons]
    refine ih hs.2 (done ++ [c]) ?_
    rw [hv', hv, hexValue_snoc]
    omega

theorem hexStringLoop_none {s : Bytes} (hs : ∃ c ∈ s, ¬ asciiIsxdigit c = true) (v : UInt64) :
    hexStringLoop s v = none := by
  induction s generalizing v with
  | nil => exact absurd hs (by simp)
  | cons c s ih =>
    by_cases hc : asciiIsxdigit c = true
    · obtain ⟨v', hstep, -⟩ := hexStringLoop_cons hc s v
      rw [hstep]
      rw [List.exists_mem_cons_iff, or_iff_right (not_not.mpr hc)] at hs
      exact ih hs v'
    · exact hexStringLoop_stuck hc s v

/-- **What is read**: the number modulo `2 ^ 64`. -/
theorem hexStringToUint64_eq {s : Bytes} (hne : s ≠ []) (hs : ∀ c ∈ s, asciiIsxdigit c = true) :
    ∃ v, (∀ result, hexStringToUint64 s result = (true, v)) ∧ v.toNat = hexValue s % 2 ^ 64 := by
  obtain ⟨v, hloop, hv⟩ := hexStringLoop_eq hs [] (rfl : (0 : UInt64).toNat = 0)
  refine ⟨v, ?_, by rwa [List.nil_append] at hv⟩
  intro result
  rw [hexStringToUint64, if_neg hne, hloop]

theorem hexStringToUint64_false {s : Bytes} (hs : s = [] ∨ ∃ c ∈ s, ¬ asciiIsxdigit c = true)
    (result : UInt64) : hexStringToUint64 s result = (false, result) := by
  rw [hexStringToUint64]
  split_ifs with hne
  · rfl
  · rw [hexStringLoop_none (hs.resolve_left hne)]

theorem hexValue_lt_pow {s : Bytes} (hs : ∀ c ∈ s, asciiIsxdigit c = true) :
    hexValue s < 16 ^ s.length := by
  have hvalue := Numeral.value_lt (List.forall_mem_map.mpr fun c hc => hexDigit_lt (hs c hc))
  rwa [List.length_map] at hvalue

/-- Sixteen digits fit; what stands before them has to be zeros. -/
theorem hexValue_lt_iff {s : Bytes} (hs : ∀ c ∈ s, asciiIsxdigit c = true) :
    hexValue s < 2 ^ 64 ↔ ∀ c ∈ s.take (s.length - 16), c = '0'.toUInt8 := by
  have hfront : ∀ c ∈ s.take (s.length - 16), asciiIsxdigit c = true :=
    fun c hc => hs c (List.mem_of_mem_take hc)
  have hback := hexValue_lt_pow fun c (hc : c ∈ s.drop (s.length - 16)) => hs c (List.mem_of_mem_drop hc)
  have hsplit : hexValue s = hexValue (s.take (s.length - 16)) * 16 ^ (s.drop (s.length - 16)).length
      + hexValue (s.drop (s.length - 16)) := by
    have happend := Numeral.value_append (b := 16) ((s.take (s.length - 16)).map hexDigit)
      ((s.drop (s.length - 16)).map hexDigit)
    rwa [← List.map_append, List.take_append_drop, List.length_map] at happend
  have hzero : hexValue (s.take (s.length - 16)) = 0 ↔ ∀ c ∈ s.take (s.length - 16), c = '0'.toUInt8 := by
    rw [hexValue, Numeral.value_eq_zero_iff (by decide), List.forall_mem_map]
    exact forall₂_congr fun c hc => hexDigit_eq_zero_iff (hfront c hc)
  rw [← hzero]
  rw [List.length_drop] at hback hsplit
  rcases Nat.lt_or_ge s.length 16 with hshort | hlong
  · have htake : s.length - 16 = 0 := by omega
    have hnil : hexValue (s.take (s.length - 16)) = 0 := by
      rw [htake]
      rfl
    refine iff_of_true ?_ hnil
    have hpow : 16 ^ s.length ≤ 16 ^ 16 := Nat.pow_le_pow_right (by decide) hshort.le
    exact (hexValue_lt_pow hs).trans_le hpow
  · have hlength : s.length - (s.length - 16) = 16 := by omega
    rw [hlength] at hback hsplit
    omega

/-- What the claim on the result of a successful call comes to. -/
def ReadsHex (s : Bytes) : Prop :=
  ∀ result v, hexStringToUint64 s result = (true, v) →
    s ≠ [] ∧ (∀ c ∈ s, asciiIsxdigit c = true) ∧ hexValue s < 2 ^ 64 ∧ v.toNat = hexValue s

/-- **Success means a number below `2 ^ 64`** unless all characters are hex digits, and one in front of the
last sixteen is not zero. -/
theorem hexStringToUint64_iff (s : Bytes) : ReadsHex s ↔
    (∃ c ∈ s, ¬ asciiIsxdigit c = true) ∨ ∀ c ∈ s.take (s.length - 16), c = '0'.toUInt8 := by
  by_cases hs : ∃ c ∈ s, ¬ asciiIsxdigit c = true
  · refine iff_of_true ?_ (.inl hs)
    intro result v hread
    rw [hexStringToUint64_false (.inr hs)] at hread
    cases hread
  · rw [or_iff_right hs]
    have hall : ∀ c ∈ s, asciiIsxdigit c = true := by
      intro c hc
      by_contra hnot
      exact hs ⟨c, hc, hnot⟩
    rw [← hexValue_lt_iff hall]
    by_cases hne : s = []
    · refine iff_of_true ?_ (by rw [hne]; decide)
      intro result v hread
      rw [hexStringToUint64_false (.inl hne)] at hread
      cases hread
    · obtain ⟨v, hrun, hv⟩ := hexStringToUint64_eq hne hall
      constructor
      · intro hreads
        exact (hreads 0 v (hrun 0)).2.2.1
      · intro hlt result v' hread
        rw [hrun] at hread
        obtain rfl := (Prod.mk.inj hread).2
        refine ⟨hne, hall, hlt, ?_⟩
        rw [hv, Nat.mod_eq_of_lt hlt]

/-- `"10000000000000000"`, which is `2 ^ 64`, is read as 0. -/
theorem hexStringToUint64_wraps : hexStringToUint64 (text "10000000000000000") 7 = (true, 0) ∧
    ¬ hexValue (text "10000000000000000") < 2 ^ 64 := by
  decide

/-! ### Writing -/

/-- The lowercase digit. -/
def hexDigitChar (d : ℕ) : UInt8 := ("0123456789abcdef".toList.map Char.toUInt8).getD d 0

/-- The last `k` digits of a number. -/
def hexDigits (k m : ℕ) : Bytes := (Numeral.numeral 16 k m).map hexDigitChar

/-- The lowercase numeral without leading zeros; zero has one digit. -/
def hexNumeral (v : UInt64) : Bytes := (Numeral.shortest 16 v.toNat).map hexDigitChar

/-- With zeros in front, up to a width. -/
def padded (width : ℕ) (v : UInt64) : Bytes :=
  List.replicate (width - (hexNumeral v).length) '0'.toUInt8 ++ hexNumeral v

theorem hexDigitChar_spec : ∀ d < 16, asciiIsxdigit (hexDigitChar d) = true ∧
    hexDigit (hexDigitChar d) = d := by
  decide

theorem toNat_shiftRight_four (v : UInt64) : (v >>> 4).toNat = v.toNat / 16 := by
  rw [UInt64.toNat_shiftRight, Nat.shiftRight_eq_div_pow]
  rfl

theorem hexdigit_eq (v : UInt64) : hexdigit v = hexDigitChar (v.toNat % 16) := by
  rw [hexdigit, UInt64.toNat_and, hexDigitChar]
  congr 1
  exact Nat.and_two_pow_sub_one_eq_mod v.toNat 4

/-- The last digit, and the digits before it. -/
theorem hexDigits_succ (k : ℕ) (v : UInt64) :
    hexDigits (k + 1) v.toNat = hexDigits k (v >>> 4).toNat ++ [hexdigit v] := by
  rw [hexDigits, Numeral.numeral, List.map_append, List.map_singleton, ← hexdigit_eq,
    ← toNat_shiftRight_four]
  rfl

@[simp] theorem length_hexDigits (k m : ℕ) : (hexDigits k m).length = k := by
  rw [hexDigits, List.length_map, Numeral.numeral_length]

/-- Enough digits are the numeral behind zeros. -/
theorem hexDigits_eq_padded (width : ℕ) (v : UInt64) :
    hexDigits (max width (hexNumeral v).length) v.toNat = padded width v := by
  have hlength : (hexNumeral v).length = (Numeral.shortest 16 v.toNat).length := List.length_map _
  have hzeros : max width (hexNumeral v).length - (Numeral.shortest 16 v.toNat).length
      = width - (hexNumeral v).length := by omega
  rw [hexDigits, Numeral.numeral_eq_append (by decide) (by omega), hzeros, List.map_append,
    List.map_replicate]
  rfl

/-- **What is written is read back.** -/
theorem hexStringToUint64_hexDigits {k : ℕ} {v : UInt64} (hk : 0 < k) (hv : v.toNat < 16 ^ k)
    (result : UInt64) : hexStringToUint64 (hexDigits k v.toNat) result = (true, v) := by
  have hlt := Numeral.numeral_lt (b := 16) (by decide) k v.toNat
  have hne : hexDigits k v.toNat ≠ [] := by
    rw [← List.length_pos_iff, length_hexDigits]
    exact hk
  have hdigits : ∀ c ∈ hexDigits k v.toNat, asciiIsxdigit c = true :=
    List.forall_mem_map.mpr fun d hd => (hexDigitChar_spec d (hlt d hd)).1
  have hback : (hexDigits k v.toNat).map hexDigit = Numeral.numeral 16 k v.toNat :=
    Numeral.map_map_of_forall fun d hd => (hexDigitChar_spec d (hlt d hd)).2
  obtain ⟨v', hread, hv'⟩ := hexStringToUint64_eq hne hdigits
  have hvalue : v'.toNat = v.toNat := by
    rw [hv', hexValue, hback, Numeral.value_numeral, Nat.mod_eq_of_lt hv,
      Nat.mod_eq_of_lt v.toNat_lt]
  rw [hread, UInt64.toNat_inj.mp hvalue]

/-- A turn writes the last digit, and is the last one when the mask has one digit. -/
theorem hexTurn_eq {s : HexWriter} {writer : ℕ} (hwriter : s.writer = writer + 1)
    (hlt : writer < s.digits.length) :
    hexTurn s = .ok (if s.mask.toNat < 16 then .inr (s.digits.set writer (hexdigit s.value), writer)
      else .inl ⟨s.digits.set writer (hexdigit s.value), writer, s.value >>> 4, s.mask >>> 4⟩) := by
  have hmask : s.mask >>> 4 = 0 ↔ s.mask.toNat < 16 := by
    rw [← UInt64.toNat_inj, toNat_shiftRight_four]
    show s.mask.toNat / 16 = 0 ↔ _
    omega
  rw [hexTurn, hwriter]
  dsimp only
  rw [writeByte_of_lt hlt, Access.ok_bind]
  by_cases hlast : s.mask.toNat < 16
  · rw [if_pos hlast, if_neg (not_not.mpr (hmask.mpr hlast))]
    rfl
  · rw [if_neg hlast, if_pos (mt hmask.mp hlast)]
    rfl

/-- **As many digits as the mask has.** -/
theorem loop_hexTurn {k n : ℕ} {s : HexWriter} (hlow : 16 ^ k ≤ s.mask.toNat)
    (hhigh : s.mask.toNat < 16 ^ (k + 1)) (hroom : k + 1 ≤ s.writer)
    (hwriter : s.writer ≤ s.digits.length) (hn : k + 1 ≤ n) :
    Loops.loop .stillRunning hexTurn n s = .ok
      (overwrite s.digits (s.writer - (k + 1)) (hexDigits (k + 1) s.value.toNat),
        s.writer - (k + 1)) := by
  induction k generalizing n s with
  | zero =>
    obtain ⟨n, rfl⟩ : ∃ m, n = m + 1 := ⟨n - 1, by omega⟩
    obtain ⟨writer, hs⟩ : ∃ m, s.writer = m + 1 := ⟨s.writer - 1, by omega⟩
    rw [Loops.loop, hexTurn_eq hs (by omega), if_pos (by omega), hexDigits_succ, hs,
      set_eq_overwrite (by omega)]
    rfl
  | succ k ih =>
    obtain ⟨n, rfl⟩ : ∃ m, n = m + 1 := ⟨n - 1, by omega⟩
    obtain ⟨writer, hs⟩ : ∃ m, s.writer = m + 1 := ⟨s.writer - 1, by omega⟩
    have hmask := toNat_shiftRight_four s.mask
    have hdigit : 16 ≤ s.mask.toNat := (Nat.le_self_pow (Nat.succ_ne_zero k) 16).trans hlow
    rw [pow_succ] at hlow hhigh
    have hrest : Loops.loop .stillRunning hexTurn n
          ⟨s.digits.set writer (hexdigit s.value), writer, s.value >>> 4, s.mask >>> 4⟩
        = .ok (overwrite (s.digits.set writer (hexdigit s.value)) (writer - (k + 1))
            (hexDigits (k + 1) (s.value >>> 4).toNat), writer - (k + 1)) := by
      refine ih ?_ ?_ ?_ ?_ (by omega)
      · show _ ≤ (s.mask >>> 4).toNat
        omega
      · show (s.mask >>> 4).toNat < _
        omega
      · show k + 1 ≤ writer
        omega
      · show writer ≤ (s.digits.set writer (hexdigit s.value)).length
        rw [List.length_set]
        omega
    have hbehind : writer - (k + 1) + (hexDigits (k + 1) (s.value >>> 4).toNat).length = writer := by
      rw [length_hexDigits]
      omega
    have hput := overwrite_set_concat (hexDigits (k + 1) (s.value >>> 4).toNat)
      (show writer - (k + 1) + _ < s.digits.length by omega) (hexdigit s.value)
    rw [hbehind] at hput
    rw [Loops.loop, hexTurn_eq hs (by omega), if_neg (by omega)]
    show Loops.loop .stillRunning hexTurn n _ = _
    rw [hrest, hput, hexDigits_succ (k + 1), hs, Nat.add_sub_add_right]

theorem lt_pow_of_length_le {k : ℕ} {v : UInt64} (hk : (hexNumeral v).length ≤ k) :
    v.toNat < 16 ^ k := by
  rw [hexNumeral, List.length_map] at hk
  exact (Numeral.lt_pow_length (by decide) v.toNat).trans_le (Nat.pow_le_pow_right (by decide) hk)

/-- The larger of the width and of the number decides how many digits the mask has. -/
theorem mask_bounds (v : UInt64) (spec : PadSpec) :
    ∃ k, max spec.width (hexNumeral v).length = k + 1 ∧
      16 ^ k ≤ ((1 <<< ((UInt64.ofNat spec.width - 1) * 4)) ||| v).toNat ∧
      ((1 <<< ((UInt64.ofNat spec.width - 1) * 4)) ||| v).toNat < 16 ^ (k + 1) ∧ k + 1 ≤ 16 := by
  have hmarker : 0 < spec.width ∧ spec.width ≤ 16 ∧
      ((1 : UInt64) <<< ((UInt64.ofNat spec.width - 1) * 4)).toNat = 16 ^ (spec.width - 1) := by
    cases spec <;> decide
  obtain ⟨hpos, hwidth, hmarker⟩ := hmarker
  have hlength : (hexNumeral v).length = (Numeral.shortest 16 v.toNat).length := List.length_map _
  have hle : (hexNumeral v).length ≤ 16 := by
    rw [hlength]
    exact Numeral.length_shortest_le (by decide) (by decide) v.toNat_lt
  refine ⟨max spec.width (hexNumeral v).length - 1, by omega, ?_, ?_, by omega⟩
  · rw [UInt64.toNat_or, hmarker]
    rcases Nat.le_total (hexNumeral v).length spec.width with hnarrow | hwide
    · rw [max_eq_left hnarrow]
      exact Nat.left_le_or
    · rcases hwide.eq_or_lt with heq | hlt
      · rw [← heq, max_self]
        exact Nat.left_le_or
      · rw [max_eq_right hwide]
        refine le_trans ?_ Nat.right_le_or
        exact Numeral.pow_le_of_length (by decide) (by omega) (.inl (by omega))
  · have hpow : ∀ k, 16 ^ k = 2 ^ (4 * k) := fun k => Nat.pow_mul 2 4 k ▸ rfl
    rw [UInt64.toNat_or, hmarker, Nat.sub_add_cancel (by omega), hpow, hpow]
    refine Nat.or_lt_two_pow ?_ ?_
    · exact Nat.pow_lt_pow_right (by decide) (by omega)
    · rw [← hpow]
      exact lt_pow_of_length_le (le_max_right _ _)

/-- The loop of `Uint64ToHexString`. -/
theorem toHexLoop_eq {i : ℕ} (v : UInt64) {buf : Bytes} (hi : i ≤ buf.length) :
    toHexLoop i v buf = .ok (overwrite buf 0 (hexDigits i v.toNat)) := by
  induction i generalizing v buf with
  | zero => rw [toHexLoop, List.length_eq_zero_iff.mp (length_hexDigits 0 v.toNat), overwrite_nil]
  | succ i ih =>
    have hput := overwrite_set_concat (hexDigits i (v >>> 4).toNat)
      (show 0 + _ < buf.length by rw [length_hexDigits]; omega) (hexdigit v)
    rw [length_hexDigits, Nat.zero_add] at hput
    rw [toHexLoop, writeByte_of_lt (by omega), Access.ok_bind,
      ih (v >>> 4) (by rw [List.length_set]; omega), hput, hexDigits_succ]

theorem uint64ToHexString_eq (v : UInt64) {buf : Bytes} (hbuf : 17 ≤ buf.length) :
    uint64ToHexString v buf = .ok (hexDigits 16 v.toNat) := by
  have hset : 16 ≤ (buf.set 16 0).length := by
    rw [List.length_set]
    omega
  have hlength : (overwrite (buf.set 16 0) 0 (hexDigits 16 v.toNat)).length = (buf.set 16 0).length := by
    rw [length_overwrite (Nat.zero_le _), length_hexDigits]
    omega
  have htake := take_drop_overwrite (Nat.zero_le (buf.set 16 0).length) (hexDigits 16 v.toNat) []
  rw [List.append_nil, length_hexDigits] at htake
  rw [uint64ToHexString, writeByte_of_lt hbuf, Access.ok_bind, toHexLoop_eq v hset, Access.ok_bind,
    readBytes_of_le (by omega), htake]

theorem alphaNumHex_eq (v : UInt64) (spec : PadSpec) {digits : Bytes}
    (hdigits : digits.length = kFastToBufferSize) :
    alphaNumHex digits ⟨v, spec⟩ = .ok (padded spec.width v) := by
  have hsize : kFastToBufferSize = 32 := rfl
  obtain ⟨k, hk, hlow, hhigh, hle⟩ := mask_bounds v spec
  have hloop := loop_hexTurn (n := kFastToBufferSize + 1)
    (s := ⟨digits, kFastToBufferSize, v, (1 <<< ((UInt64.ofNat spec.width - 1) * 4)) ||| v⟩)
    hlow hhigh (show k + 1 ≤ kFastToBufferSize by omega) hdigits.ge (by omega)
  have htake := take_drop_overwrite (show kFastToBufferSize - (k + 1) ≤ digits.length by omega)
    (hexDigits (k + 1) v.toNat) []
  rw [List.append_nil, length_hexDigits] at htake
  have hback : kFastToBufferSize - (kFastToBufferSize - (k + 1)) = k + 1 := by omega
  rw [alphaNumHex]
  dsimp only
  rw [hloop, Access.ok_bind]
  dsimp only
  rw [hback, readBytes_of_le, htake, ← hk, hexDigits_eq_padded]
  rw [length_overwrite (by omega), length_hexDigits]
  omega

/-- **`AlphaNum(Hex)`** is the numeral, padded to the width, in the buffer; it is read back, and
`Uint64ToHexString` pads to 16. -/
theorem alphaNumHex_spec (v : UInt64) (spec : PadSpec) :
    (∀ digits : Bytes, digits.length = kFastToBufferSize →
      alphaNumHex digits ⟨v, spec⟩ = .ok (padded spec.width v)) ∧
    (padded spec.width v).length = max spec.width (hexNumeral v).length ∧
    (padded spec.width v).length ≤ kFastToBufferSize ∧
    (∀ result, hexStringToUint64 (padded spec.width v) result = (true, v)) ∧
    ∀ digits buf : Bytes, digits.length = kFastToBufferSize → 17 ≤ buf.length →
      uint64ToHexString v buf = alphaNumHex digits ⟨v, .zeroPad16⟩ := by
  obtain ⟨k, hk, -, -, hle⟩ := mask_bounds v spec
  have hpadded := hexDigits_eq_padded spec.width v
  have hlength := length_hexDigits (max spec.width (hexNumeral v).length) v.toNat
  rw [hpadded] at hlength
  refine ⟨fun digits hdigits => alphaNumHex_eq v spec hdigits, hlength, ?_, ?_, ?_⟩
  · rw [hlength, hk]
    exact hle.trans (by decide)
  · rw [← hpadded]
    exact hexStringToUint64_hexDigits (by omega) (lt_pow_of_length_le (le_max_right _ _))
  · intro digits buf hdigits hbuf
    have hwide : max 16 (hexNumeral v).length = 16 := by
      refine max_eq_left ?_
      rw [hexNumeral, List.length_map]
      exact Numeral.length_shortest_le (by decide) (by decide) v.toNat_lt
    have hsixteen := hexDigits_eq_padded 16 v
    rw [hwide] at hsixteen
    rw [uint64ToHexString_eq v hbuf, alphaNumHex_eq v .zeroPad16 hdigits, hsixteen]
    rfl

end LearnNetlib.Strings
