import LearnNetlib.Base.Bytes
import LearnNetlib.Foundations.ObjectStorage

/-!
# `UTF8Encode` and `UTF8Decode` (`base/string_encode.cc`)

* `utf8Encode`, `utf8Decode` — the code; a read or a write outside has no result;
* `Accepted` — a lead byte and as many continuation bytes as it asks for, with the value they spell;
  `utf8Decode_append`, `utf8Decode_outcome` — what is decoded, and nothing else;
* `encoding` — the shortest of the sequences for a value: `encoding_minimal`;
* **`utf8_stream`** — what is encoded, and that a stream of code points is decoded again;
* **`decodesShortest_iff`** — sequences that are longer than they have to be are decoded as well.
-/

namespace LearnNetlib

open ObjectStorage

/-! ### The code -/

/-- `UTF8Encode(buffer, buf_len, value)`: the buffer, and what is returned. -/
def utf8Encode (buffer : Bytes) (value : UInt64) : Access (Bytes × ℕ) :=
  if value ≤ 0x7F ∧ buffer.length ≥ 1 then do
    let buffer ← writeByte buffer 0 value.toUInt8
    return (buffer, 1)
  else if value ≤ 0x7FF ∧ buffer.length ≥ 2 then do
    let buffer ← writeByte buffer 0 ((0xC0 : UInt8) ||| (value >>> 6).toUInt8)
    let buffer ← writeByte buffer 1 ((0x80 : UInt8) ||| (value &&& 0x3F).toUInt8)
    return (buffer, 2)
  else if value ≤ 0xFFFF ∧ buffer.length ≥ 3 then do
    let buffer ← writeByte buffer 0 ((0xE0 : UInt8) ||| (value >>> 12).toUInt8)
    let buffer ← writeByte buffer 1 ((0x80 : UInt8) ||| ((value >>> 6) &&& 0x3F).toUInt8)
    let buffer ← writeByte buffer 2 ((0x80 : UInt8) ||| (value &&& 0x3F).toUInt8)
    return (buffer, 3)
  else if value ≤ 0x1FFFFF ∧ buffer.length ≥ 4 then do
    let buffer ← writeByte buffer 0 ((0xF0 : UInt8) ||| (value >>> 18).toUInt8)
    let buffer ← writeByte buffer 1 ((0x80 : UInt8) ||| ((value >>> 12) &&& 0x3F).toUInt8)
    let buffer ← writeByte buffer 2 ((0x80 : UInt8) ||| ((value >>> 6) &&& 0x3F).toUInt8)
    let buffer ← writeByte buffer 3 ((0x80 : UInt8) ||| (value &&& 0x3F).toUInt8)
    return (buffer, 4)
  else return (buffer, 0)

/-- `UTF8Decode(source, src_len, value)`: what is returned, and `*value`. -/
def utf8Decode (source : Bytes) (value : UInt64) : Access (ℕ × UInt64) := do
  let s₀ ← readByte source 0
  if s₀ &&& 0x80 = 0x00 then return (1, s₀.toUInt64)
  else if source.length < 2 then return (0, value)
  else
    let s₁ ← readByte source 1
    if s₁ &&& 0xC0 ≠ 0x80 then return (0, value)
    else
      let value16 := (s₁ &&& 0x3F).toUInt64
      if s₀ &&& 0xE0 = 0xC0 then return (2, ((s₀ &&& 0x1F).toUInt64 <<< 6) ||| value16)
      else if source.length < 3 then return (0, value)
      else
        let s₂ ← readByte source 2
        if s₂ &&& 0xC0 ≠ 0x80 then return (0, value)
        else
          let value16 := (value16 <<< 6) ||| (s₂ &&& 0x3F).toUInt64
          if s₀ &&& 0xF0 = 0xE0 then return (3, ((s₀ &&& 0x0F).toUInt64 <<< 12) ||| value16)
          else if source.length < 4 then return (0, value)
          else
            let s₃ ← readByte source 3
            if s₃ &&& 0xC0 ≠ 0x80 then return (0, value)
            else
              let value16 := (value16 <<< 6) ||| (s₃ &&& 0x3F).toUInt64
              if s₀ &&& 0xF8 = 0xF0 then return (4, ((s₀ &&& 0x07).toUInt64 <<< 18) ||| value16)
              else return (0, value)

/-- Code points encoded one after another, into the same buffer. -/
def encodeEach (buffer : Bytes) : List UInt64 → Access Bytes
  | [] => .ok []
  | value :: values => do
    let (buffer, n) ← utf8Encode buffer value
    let bytes ← readBytes buffer 0 n
    let rest ← encodeEach buffer values
    return bytes ++ rest

/-- Code points decoded one after another, until nothing is left or nothing can be decoded: the code points,
and what is left. -/
def decodeEach : ℕ → Bytes → Access (List UInt64 × Bytes)
  | _, [] => .ok ([], [])
  | 0, _ => .error .stillRunning
  | k + 1, source => do
    let (n, value) ← utf8Decode source 0
    if n = 0 then return ([], source)
    else
      let (values, rest) ← decodeEach k (source.drop n)
      return (value :: values, rest)

/-! ### Sequences -/

/-- `10xxxxxx`. -/
def Continues (b : UInt8) : Prop := 128 ≤ b.toNat ∧ b.toNat < 192

/-- The sequences that are decoded, and their values. -/
inductive Accepted : Bytes → ℕ → Prop
  | one {b₀ : UInt8} (h₀ : b₀.toNat < 128) : Accepted [b₀] b₀.toNat
  | two {b₀ b₁ : UInt8} (h₀ : 192 ≤ b₀.toNat ∧ b₀.toNat < 224) (h₁ : Continues b₁) :
      Accepted [b₀, b₁] (b₀.toNat % 32 * 2 ^ 6 + b₁.toNat % 64)
  | three {b₀ b₁ b₂ : UInt8} (h₀ : 224 ≤ b₀.toNat ∧ b₀.toNat < 240) (h₁ : Continues b₁) (h₂ : Continues b₂) :
      Accepted [b₀, b₁, b₂] (b₀.toNat % 16 * 2 ^ 12 + (b₁.toNat % 64 * 2 ^ 6 + b₂.toNat % 64))
  | four {b₀ b₁ b₂ b₃ : UInt8} (h₀ : 240 ≤ b₀.toNat ∧ b₀.toNat < 248) (h₁ : Continues b₁)
      (h₂ : Continues b₂) (h₃ : Continues b₃) :
      Accepted [b₀, b₁, b₂, b₃]
        (b₀.toNat % 8 * 2 ^ 18 + ((b₁.toNat % 64 * 2 ^ 6 + b₂.toNat % 64) * 2 ^ 6 + b₃.toNat % 64))

instance (b : UInt8) : Decidable (Continues b) := inferInstanceAs (Decidable (_ ∧ _))

/-- The tests of the decoder. -/
theorem masks (b : UInt8) :
    (b &&& 0x80 = 0x00 ↔ b.toNat < 128) ∧ (b &&& 0xC0 = 0x80 ↔ Continues b) ∧
      (b &&& 0xE0 = 0xC0 ↔ 192 ≤ b.toNat ∧ b.toNat < 224) ∧
      (b &&& 0xF0 = 0xE0 ↔ 224 ≤ b.toNat ∧ b.toNat < 240) ∧
      (b &&& 0xF8 = 0xF0 ↔ 240 ≤ b.toNat ∧ b.toNat < 248) := by
  revert b
  exact forall_byte (by decide +kernel)

/-- The bits that count. -/
theorem bits (b : UInt8) :
    (b &&& 0x3F).toUInt64.toNat = b.toNat % 64 ∧ (b &&& 0x1F).toUInt64.toNat = b.toNat % 32 ∧
      (b &&& 0x0F).toUInt64.toNat = b.toNat % 16 ∧ (b &&& 0x07).toUInt64.toNat = b.toNat % 8 := by
  revert b
  exact forall_byte (by decide +kernel)

/-- More bits behind the ones there are. -/
theorem toNat_shift_or {k : ℕ} {a b s : UInt64} (hs : s.toNat = k) (hk : k < 64) (hb : b.toNat < 2 ^ k)
    (ha : a.toNat * 2 ^ k < 2 ^ 64) : ((a <<< s) ||| b).toNat = a.toNat * 2 ^ k + b.toNat := by
  rw [UInt64.toNat_or, UInt64.toNat_shiftLeft, hs, Nat.mod_eq_of_lt hk, Nat.shiftLeft_eq, Nat.mod_eq_of_lt ha,
    ← Nat.shiftLeft_eq, Nat.shiftLeft_add_eq_or_of_lt hb]

section Values

variable (b₀ b₁ b₂ b₃ : UInt8)

theorem toNat_value_one : (((b₁ &&& 0x3F).toUInt64 <<< 6) ||| (b₂ &&& 0x3F).toUInt64).toNat
    = b₁.toNat % 64 * 2 ^ 6 + b₂.toNat % 64 := by
  have h₁ := (bits b₁).1
  have h₂ := (bits b₂).1
  rw [toNat_shift_or (k := 6) rfl (by decide) (by omega) (by omega), h₁, h₂]

theorem value_two : ((b₀ &&& 0x1F).toUInt64 <<< 6) ||| (b₁ &&& 0x3F).toUInt64
    = UInt64.ofNat (b₀.toNat % 32 * 2 ^ 6 + b₁.toNat % 64) := by
  have h₀ := (bits b₀).2.1
  have h₁ := (bits b₁).1
  have hvalue := toNat_shift_or (k := 6) (a := (b₀ &&& 0x1F).toUInt64) (b := (b₁ &&& 0x3F).toUInt64) (s := 6)
    rfl (by decide) (by omega) (by omega)
  rw [h₀, h₁] at hvalue
  rw [← hvalue, UInt64.ofNat_toNat]

theorem value_three : ((b₀ &&& 0x0F).toUInt64 <<< 12) |||
      (((b₁ &&& 0x3F).toUInt64 <<< 6) ||| (b₂ &&& 0x3F).toUInt64)
    = UInt64.ofNat (b₀.toNat % 16 * 2 ^ 12 + (b₁.toNat % 64 * 2 ^ 6 + b₂.toNat % 64)) := by
  have h₀ := (bits b₀).2.2.1
  have h₁₂ := toNat_value_one b₁ b₂
  have hvalue := toNat_shift_or (k := 12) (a := (b₀ &&& 0x0F).toUInt64)
    (b := ((b₁ &&& 0x3F).toUInt64 <<< 6) ||| (b₂ &&& 0x3F).toUInt64) (s := 12)
    rfl (by decide) (by omega) (by omega)
  rw [h₀, h₁₂] at hvalue
  rw [← hvalue, UInt64.ofNat_toNat]

theorem value_four : ((b₀ &&& 0x07).toUInt64 <<< 18) |||
      ((((b₁ &&& 0x3F).toUInt64 <<< 6) ||| (b₂ &&& 0x3F).toUInt64) <<< 6 ||| (b₃ &&& 0x3F).toUInt64)
    = UInt64.ofNat (b₀.toNat % 8 * 2 ^ 18
      + ((b₁.toNat % 64 * 2 ^ 6 + b₂.toNat % 64) * 2 ^ 6 + b₃.toNat % 64)) := by
  have h₀ := (bits b₀).2.2.2
  have h₃ := (bits b₃).1
  have h₁₂ := toNat_value_one b₁ b₂
  have h₁₂₃ := toNat_shift_or (k := 6) (a := ((b₁ &&& 0x3F).toUInt64 <<< 6) ||| (b₂ &&& 0x3F).toUInt64)
    (b := (b₃ &&& 0x3F).toUInt64) (s := 6) rfl (by decide) (by omega) (by omega)
  rw [h₁₂, h₃] at h₁₂₃
  have hvalue := toNat_shift_or (k := 18) (a := (b₀ &&& 0x07).toUInt64)
    (b := (((b₁ &&& 0x3F).toUInt64 <<< 6) ||| (b₂ &&& 0x3F).toUInt64) <<< 6 ||| (b₃ &&& 0x3F).toUInt64) (s := 18)
    rfl (by decide) (by omega) (by omega)
  rw [h₀, h₁₂₃] at hvalue
  rw [← hvalue, UInt64.ofNat_toNat]

end Values

/-- **What is decoded.** -/
theorem utf8Decode_append {s : Bytes} {v : ℕ} (h : Accepted s v) (rest : Bytes) (value : UInt64) :
    utf8Decode (s ++ rest) value = .ok (s.length, UInt64.ofNat v) := by
  cases h with
  | @one b₀ h₀ =>
    have hread : readByte (b₀ :: rest) 0 = .ok b₀ := rfl
    have hvalue : b₀.toUInt64 = UInt64.ofNat b₀.toNat := by rw [UInt64.ofNat_uInt8ToNat]
    show utf8Decode (b₀ :: rest) value = _
    rw [utf8Decode, hread, Access.ok_bind, if_pos ((masks b₀).1.mpr h₀), hvalue]
    rfl
  | @two b₀ b₁ h₀ h₁ =>
    have hread₀ : readByte (b₀ :: b₁ :: rest) 0 = .ok b₀ := rfl
    have hread₁ : readByte (b₀ :: b₁ :: rest) 1 = .ok b₁ := rfl
    show utf8Decode (b₀ :: b₁ :: rest) value = _
    rw [utf8Decode, hread₀, Access.ok_bind, if_neg (mt (masks b₀).1.mp (by omega)), if_neg (by simp), hread₁,
      Access.ok_bind, if_neg (not_not.mpr ((masks b₁).2.1.mpr h₁))]
    dsimp only
    rw [if_pos ((masks b₀).2.2.1.mpr h₀), value_two]
    rfl
  | @three b₀ b₁ b₂ h₀ h₁ h₂ =>
    have hread₀ : readByte (b₀ :: b₁ :: b₂ :: rest) 0 = .ok b₀ := rfl
    have hread₁ : readByte (b₀ :: b₁ :: b₂ :: rest) 1 = .ok b₁ := rfl
    have hread₂ : readByte (b₀ :: b₁ :: b₂ :: rest) 2 = .ok b₂ := rfl
    show utf8Decode (b₀ :: b₁ :: b₂ :: rest) value = _
    rw [utf8Decode, hread₀, Access.ok_bind, if_neg (mt (masks b₀).1.mp (by omega)), if_neg (by simp), hread₁,
      Access.ok_bind, if_neg (not_not.mpr ((masks b₁).2.1.mpr h₁))]
    dsimp only
    rw [if_neg (mt (masks b₀).2.2.1.mp (by omega)), if_neg (by simp), hread₂, Access.ok_bind,
      if_neg (not_not.mpr ((masks b₂).2.1.mpr h₂)), if_pos ((masks b₀).2.2.2.1.mpr h₀), value_three]
    rfl
  | @four b₀ b₁ b₂ b₃ h₀ h₁ h₂ h₃ =>
    have hread₀ : readByte (b₀ :: b₁ :: b₂ :: b₃ :: rest) 0 = .ok b₀ := rfl
    have hread₁ : readByte (b₀ :: b₁ :: b₂ :: b₃ :: rest) 1 = .ok b₁ := rfl
    have hread₂ : readByte (b₀ :: b₁ :: b₂ :: b₃ :: rest) 2 = .ok b₂ := rfl
    have hread₃ : readByte (b₀ :: b₁ :: b₂ :: b₃ :: rest) 3 = .ok b₃ := rfl
    show utf8Decode (b₀ :: b₁ :: b₂ :: b₃ :: rest) value = _
    rw [utf8Decode, hread₀, Access.ok_bind, if_neg (mt (masks b₀).1.mp (by omega)), if_neg (by simp), hread₁,
      Access.ok_bind, if_neg (not_not.mpr ((masks b₁).2.1.mpr h₁))]
    dsimp only
    rw [if_neg (mt (masks b₀).2.2.1.mp (by omega)), if_neg (by simp), hread₂, Access.ok_bind,
      if_neg (not_not.mpr ((masks b₂).2.1.mpr h₂)), if_neg (mt (masks b₀).2.2.2.1.mp (by omega)),
      if_neg (by simp), hread₃, Access.ok_bind, if_neg (not_not.mpr ((masks b₃).2.1.mpr h₃)),
      if_pos ((masks b₀).2.2.2.2.mpr h₀), value_four]
    rfl

/-- **Nothing else is.** -/
theorem utf8Decode_outcome {source : Bytes} (hne : source ≠ []) (value : UInt64) :
    (∃ s v rest, Accepted s v ∧ source = s ++ rest) ∨ utf8Decode source value = .ok (0, value) := by
  rcases source with _ | ⟨b₀, source⟩
  · exact absurd rfl hne
  by_cases h₀ : b₀.toNat < 128
  · exact .inl ⟨[b₀], _, source, .one h₀, rfl⟩
  rw [utf8Decode, show readByte (b₀ :: source) 0 = .ok b₀ from rfl, Access.ok_bind, if_neg (mt (masks b₀).1.mp h₀)]
  rcases source with _ | ⟨b₁, source⟩
  · exact .inr (if_pos (by simp))
  rw [if_neg (by simp), show readByte (b₀ :: b₁ :: source) 1 = .ok b₁ from rfl, Access.ok_bind]
  by_cases h₁ : Continues b₁
  swap
  · exact .inr (if_pos (mt (masks b₁).2.1.mp h₁))
  rw [if_neg (not_not.mpr ((masks b₁).2.1.mpr h₁))]
  dsimp only
  by_cases htwo : 192 ≤ b₀.toNat ∧ b₀.toNat < 224
  · exact .inl ⟨[b₀, b₁], _, source, .two htwo h₁, rfl⟩
  rw [if_neg (mt (masks b₀).2.2.1.mp htwo)]
  rcases source with _ | ⟨b₂, source⟩
  · exact .inr (if_pos (by simp))
  rw [if_neg (by simp), show readByte (b₀ :: b₁ :: b₂ :: source) 2 = .ok b₂ from rfl, Access.ok_bind]
  by_cases h₂ : Continues b₂
  swap
  · exact .inr (if_pos (mt (masks b₂).2.1.mp h₂))
  rw [if_neg (not_not.mpr ((masks b₂).2.1.mpr h₂))]
  by_cases hthree : 224 ≤ b₀.toNat ∧ b₀.toNat < 240
  · exact .inl ⟨[b₀, b₁, b₂], _, source, .three hthree h₁ h₂, rfl⟩
  rw [if_neg (mt (masks b₀).2.2.2.1.mp hthree)]
  rcases source with _ | ⟨b₃, source⟩
  · exact .inr (if_pos (by simp))
  rw [if_neg (by simp), show readByte (b₀ :: b₁ :: b₂ :: b₃ :: source) 3 = .ok b₃ from rfl, Access.ok_bind]
  by_cases h₃ : Continues b₃
  swap
  · exact .inr (if_pos (mt (masks b₃).2.1.mp h₃))
  rw [if_neg (not_not.mpr ((masks b₃).2.1.mpr h₃))]
  by_cases hfour : 240 ≤ b₀.toNat ∧ b₀.toNat < 248
  · exact .inl ⟨[b₀, b₁, b₂, b₃], _, source, .four hfour h₁ h₂ h₃, rfl⟩
  · exact .inr (if_neg (mt (masks b₀).2.2.2.2.mp hfour))

/-! ### The shortest sequence -/

/-- The shortest sequence for a value. -/
def encoding (v : ℕ) : Bytes :=
  if v ≤ 0x7F then [UInt8.ofNat v]
  else if v ≤ 0x7FF then [UInt8.ofNat (0xC0 + v / 2 ^ 6), UInt8.ofNat (0x80 + v % 64)]
  else if v ≤ 0xFFFF then
    [UInt8.ofNat (0xE0 + v / 2 ^ 12), UInt8.ofNat (0x80 + v / 2 ^ 6 % 64), UInt8.ofNat (0x80 + v % 64)]
  else
    [UInt8.ofNat (0xF0 + v / 2 ^ 18), UInt8.ofNat (0x80 + v / 2 ^ 12 % 64), UInt8.ofNat (0x80 + v / 2 ^ 6 % 64),
      UInt8.ofNat (0x80 + v % 64)]

/-- A sequence that is longer than it has to be: its first bits are zero. -/
inductive Overlong : Bytes → Prop
  | two {b₀ b₁ : UInt8} (h₀ : b₀ = 0xC0 ∨ b₀ = 0xC1) (h₁ : Continues b₁) : Overlong [b₀, b₁]
  | three {b₁ b₂ : UInt8} (h₁ : Continues b₁) (hsmall : b₁ < 0xA0) (h₂ : Continues b₂) :
      Overlong [0xE0, b₁, b₂]
  | four {b₁ b₂ b₃ : UInt8} (h₁ : Continues b₁) (hsmall : b₁ < 0x90) (h₂ : Continues b₂)
      (h₃ : Continues b₃) : Overlong [0xF0, b₁, b₂, b₃]

theorem encoding_one {v : ℕ} (hv : v ≤ 0x7F) : encoding v = [UInt8.ofNat v] := if_pos hv

theorem encoding_two {v : ℕ} (hlow : 0x7F < v) (hv : v ≤ 0x7FF) :
    encoding v = [UInt8.ofNat (0xC0 + v / 2 ^ 6), UInt8.ofNat (0x80 + v % 64)] := by
  rw [encoding, if_neg (by omega), if_pos hv]

theorem encoding_three {v : ℕ} (hlow : 0x7FF < v) (hv : v ≤ 0xFFFF) :
    encoding v = [UInt8.ofNat (0xE0 + v / 2 ^ 12), UInt8.ofNat (0x80 + v / 2 ^ 6 % 64),
      UInt8.ofNat (0x80 + v % 64)] := by
  rw [encoding, if_neg (by omega), if_neg (by omega), if_pos hv]

theorem encoding_four {v : ℕ} (hlow : 0xFFFF < v) :
    encoding v = [UInt8.ofNat (0xF0 + v / 2 ^ 18), UInt8.ofNat (0x80 + v / 2 ^ 12 % 64),
      UInt8.ofNat (0x80 + v / 2 ^ 6 % 64), UInt8.ofNat (0x80 + v % 64)] := by
  rw [encoding, if_neg (by omega), if_neg (by omega), if_neg (by omega)]

theorem length_encoding (v : ℕ) : (encoding v).length
    = if v ≤ 0x7F then 1 else if v ≤ 0x7FF then 2 else if v ≤ 0xFFFF then 3 else 4 := by
  rw [encoding]
  split_ifs <;> rfl

theorem toNat_ofNat {n : ℕ} (hn : n < 256) : (UInt8.ofNat n).toNat = n := UInt8.toNat_ofNat_of_lt' hn

/-- The shortest sequence is a sequence for the value. -/
theorem accepted_encoding {v : ℕ} (hv : v ≤ 0x1FFFFF) : Accepted (encoding v) v := by
  have htail (n : ℕ) : (UInt8.ofNat (0x80 + n % 64)).toNat = 0x80 + n % 64 := toNat_ofNat (by omega)
  have hcontinues (n : ℕ) : Continues (UInt8.ofNat (0x80 + n % 64)) := by
    rw [Continues, htail]
    omega
  by_cases hone : v ≤ 0x7F
  · have hvalue : (UInt8.ofNat v).toNat = v := toNat_ofNat (by omega)
    have haccepted := @Accepted.one (UInt8.ofNat v) (by omega)
    rw [hvalue] at haccepted
    rwa [encoding_one hone]
  by_cases htwo : v ≤ 0x7FF
  · have hlead : (UInt8.ofNat (0xC0 + v / 2 ^ 6)).toNat = 0xC0 + v / 2 ^ 6 := toNat_ofNat (by omega)
    have haccepted := @Accepted.two (UInt8.ofNat (0xC0 + v / 2 ^ 6)) _ (by omega) (hcontinues v)
    rw [hlead, htail] at haccepted
    have hvalue : (0xC0 + v / 2 ^ 6) % 32 * 2 ^ 6 + (0x80 + v % 64) % 64 = v := by omega
    rw [hvalue] at haccepted
    rwa [encoding_two (by omega) htwo]
  by_cases hthree : v ≤ 0xFFFF
  · have hlead : (UInt8.ofNat (0xE0 + v / 2 ^ 12)).toNat = 0xE0 + v / 2 ^ 12 := toNat_ofNat (by omega)
    have haccepted := @Accepted.three (UInt8.ofNat (0xE0 + v / 2 ^ 12)) _ _ (by omega)
      (hcontinues (v / 2 ^ 6)) (hcontinues v)
    rw [hlead, htail, htail] at haccepted
    have hvalue : (0xE0 + v / 2 ^ 12) % 16 * 2 ^ 12
        + ((0x80 + v / 2 ^ 6 % 64) % 64 * 2 ^ 6 + (0x80 + v % 64) % 64) = v := by omega
    rw [hvalue] at haccepted
    rwa [encoding_three (by omega) hthree]
  · have hlead : (UInt8.ofNat (0xF0 + v / 2 ^ 18)).toNat = 0xF0 + v / 2 ^ 18 := toNat_ofNat (by omega)
    have haccepted := @Accepted.four (UInt8.ofNat (0xF0 + v / 2 ^ 18)) _ _ _ (by omega)
      (hcontinues (v / 2 ^ 12)) (hcontinues (v / 2 ^ 6)) (hcontinues v)
    rw [hlead, htail, htail, htail] at haccepted
    have hvalue : (0xF0 + v / 2 ^ 18) % 8 * 2 ^ 18 + (((0x80 + v / 2 ^ 12 % 64) % 64 * 2 ^ 6
        + (0x80 + v / 2 ^ 6 % 64) % 64) * 2 ^ 6 + (0x80 + v % 64) % 64) = v := by omega
    rw [hvalue] at haccepted
    rwa [encoding_four (by omega)]

theorem overlong_two_iff (b₀ : UInt8) {b₁ : UInt8} (h₁ : Continues b₁) :
    Overlong [b₀, b₁] ↔ b₀.toNat = 192 ∨ b₀.toNat = 193 := by
  constructor
  · intro h
    cases h with
    | two h₀ _ => rcases h₀ with rfl | rfl <;> decide
  · intro h₀
    refine .two ?_ h₁
    rwa [← UInt8.toNat_inj, ← UInt8.toNat_inj]

theorem overlong_three_iff (b₀ : UInt8) {b₁ b₂ : UInt8} (h₁ : Continues b₁) (h₂ : Continues b₂) :
    Overlong [b₀, b₁, b₂] ↔ b₀.toNat = 224 ∧ b₁.toNat < 160 := by
  constructor
  · intro h
    cases h with
    | three _ hsmall _ => exact ⟨rfl, hsmall⟩
  · rintro ⟨h₀, hsmall⟩
    obtain rfl : b₀ = 0xE0 := UInt8.toNat_inj.mp h₀
    exact .three h₁ hsmall h₂

theorem overlong_four_iff (b₀ : UInt8) {b₁ b₂ b₃ : UInt8} (h₁ : Continues b₁) (h₂ : Continues b₂)
    (h₃ : Continues b₃) :
    Overlong [b₀, b₁, b₂, b₃] ↔ b₀.toNat = 240 ∧ b₁.toNat < 144 := by
  constructor
  · intro h
    cases h with
    | four _ hsmall _ _ => exact ⟨rfl, hsmall⟩
  · rintro ⟨h₀, hsmall⟩
    obtain rfl : b₀ = 0xF0 := UInt8.toNat_inj.mp h₀
    exact .four h₁ hsmall h₂ h₃

/-- A sequence has the value of a shorter one, or it is the shortest one. -/
theorem Accepted.encoding {s : Bytes} {v : ℕ} (h : Accepted s v) :
    v ≤ 0x1FFFFF ∧ ((encoding v).length < s.length ∧ Overlong s ∨ encoding v = s ∧ ¬ Overlong s) := by
  have hbyte {b : UInt8} {n : ℕ} (hn : n = b.toNat) : UInt8.ofNat n = b := by rw [hn, UInt8.ofNat_toNat]
  rw [length_encoding]
  cases h with
  | @one b₀ h₀ =>
    refine ⟨by omega, .inr ⟨?_, ?_⟩⟩
    · rw [encoding_one (by omega), UInt8.ofNat_toNat]
    · intro hlong
      cases hlong
  | @two b₀ b₁ h₀ h₁ =>
    have hlong := overlong_two_iff b₀ h₁
    rw [Continues] at h₁
    rw [hlong]
    refine ⟨by omega, ?_⟩
    by_cases hsmall : b₀.toNat = 192 ∨ b₀.toNat = 193
    · refine .inl ⟨?_, hsmall⟩
      rw [if_pos (by omega)]
      exact Nat.lt_succ_self 1
    · refine .inr ⟨?_, hsmall⟩
      rw [encoding_two (by omega) (by omega), hbyte (b := b₀) (by omega), hbyte (b := b₁) (by omega)]
  | @three b₀ b₁ b₂ h₀ h₁ h₂ =>
    have hlong := overlong_three_iff b₀ h₁ h₂
    rw [Continues] at h₁ h₂
    rw [hlong]
    refine ⟨by omega, ?_⟩
    by_cases hsmall : b₀.toNat = 224 ∧ b₁.toNat < 160
    · refine .inl ⟨?_, hsmall⟩
      have hle : b₀.toNat % 16 * 2 ^ 12 + (b₁.toNat % 64 * 2 ^ 6 + b₂.toNat % 64) ≤ 0x7FF := by omega
      rw [if_pos hle]
      simp only [List.length_cons, List.length_nil]
      split_ifs <;> omega
    · refine .inr ⟨?_, hsmall⟩
      rw [encoding_three (by omega) (by omega), hbyte (b := b₀) (by omega), hbyte (b := b₁) (by omega),
        hbyte (b := b₂) (by omega)]
  | @four b₀ b₁ b₂ b₃ h₀ h₁ h₂ h₃ =>
    have hlong := overlong_four_iff b₀ h₁ h₂ h₃
    rw [Continues] at h₁ h₂ h₃
    rw [hlong]
    refine ⟨by omega, ?_⟩
    by_cases hsmall : b₀.toNat = 240 ∧ b₁.toNat < 144
    · refine .inl ⟨?_, hsmall⟩
      have hle : b₀.toNat % 8 * 2 ^ 18 + ((b₁.toNat % 64 * 2 ^ 6 + b₂.toNat % 64) * 2 ^ 6 + b₃.toNat % 64)
          ≤ 0xFFFF := by omega
      rw [if_pos hle]
      simp only [List.length_cons, List.length_nil]
      split_ifs <;> omega
    · refine .inr ⟨?_, hsmall⟩
      rw [encoding_four (by omega), hbyte (b := b₀) (by omega), hbyte (b := b₁) (by omega),
        hbyte (b := b₂) (by omega), hbyte (b := b₃) (by omega)]

/-- No sequence for a value is shorter. -/
theorem encoding_minimal {s : Bytes} {v : ℕ} (h : Accepted s v) : (encoding v).length ≤ s.length := by
  rcases h.encoding.2 with ⟨hlt, -⟩ | ⟨heq, -⟩
  · exact hlt.le
  · rw [heq]

/-! ### What is written -/

/-- The lead bytes and the continuation bytes. -/
theorem marks :
    (∀ n < 32, (0xC0 : UInt8) ||| UInt8.ofNat n = UInt8.ofNat (0xC0 + n)) ∧
      (∀ n < 16, (0xE0 : UInt8) ||| UInt8.ofNat n = UInt8.ofNat (0xE0 + n)) ∧
      (∀ n < 8, (0xF0 : UInt8) ||| UInt8.ofNat n = UInt8.ofNat (0xF0 + n)) ∧
      ∀ n < 64, (0x80 : UInt8) ||| UInt8.ofNat n = UInt8.ofNat (0x80 + n) := by
  decide +kernel

theorem toUInt8_shift {k : ℕ} (value : UInt64) {s : UInt64} (hs : s.toNat = k) (hk : k < 64) :
    (value >>> s).toUInt8 = UInt8.ofNat (value.toNat / 2 ^ k) ∧
      (value >>> s).toNat = value.toNat / 2 ^ k := by
  have hshift : (value >>> s).toNat = value.toNat / 2 ^ k := by
    rw [UInt64.toNat_shiftRight, hs, Nat.mod_eq_of_lt hk, Nat.shiftRight_eq_div_pow]
  exact ⟨by rw [← hshift, UInt8.ofNat_uInt64ToNat], hshift⟩

theorem mark_tail (value : UInt64) :
    (0x80 : UInt8) ||| (value &&& 0x3F).toUInt8 = UInt8.ofNat (0x80 + value.toNat % 64) := by
  have hand : (value &&& 0x3F).toNat = value.toNat % 64 := by
    rw [UInt64.toNat_and]
    exact Nat.and_two_pow_sub_one_eq_mod value.toNat 6
  rw [← UInt8.ofNat_uInt64ToNat, hand]
  exact marks.2.2.2 _ (by omega)

section Writing

variable {buffer : Bytes} (a b c d : UInt8)

theorem write_one (hroom : 1 ≤ buffer.length) :
    (do
      let buffer ← writeByte buffer 0 a
      return (buffer, 1)) = (.ok (overwrite buffer 0 [a], 1) : Access (Bytes × ℕ)) := by
  rw [writeByte_of_lt hroom, Access.ok_bind, set_eq_overwrite hroom]
  rfl

theorem write_two (hroom : 2 ≤ buffer.length) :
    (do
      let buffer ← writeByte buffer 0 a
      let buffer ← writeByte buffer 1 b
      return (buffer, 2)) = (.ok (overwrite buffer 0 [a, b], 2) : Access (Bytes × ℕ)) := by
  rw [writeByte_of_lt (by omega), Access.ok_bind, writeByte_of_lt (by rw [List.length_set]; omega),
    Access.ok_bind, set_eq_overwrite (by rw [List.length_set]; omega), overwrite_set_cons (by omega)]
  rfl

theorem write_three (hroom : 3 ≤ buffer.length) :
    (do
      let buffer ← writeByte buffer 0 a
      let buffer ← writeByte buffer 1 b
      let buffer ← writeByte buffer 2 c
      return (buffer, 3)) = (.ok (overwrite buffer 0 [a, b, c], 3) : Access (Bytes × ℕ)) := by
  rw [writeByte_of_lt (by omega), Access.ok_bind, writeByte_of_lt (by rw [List.length_set]; omega),
    Access.ok_bind, writeByte_of_lt (by rw [List.length_set, List.length_set]; omega), Access.ok_bind,
    set_eq_overwrite (by rw [List.length_set, List.length_set]; omega),
    overwrite_set_cons (by rw [List.length_set]; omega), overwrite_set_cons (by omega)]
  rfl

theorem write_four (hroom : 4 ≤ buffer.length) :
    (do
      let buffer ← writeByte buffer 0 a
      let buffer ← writeByte buffer 1 b
      let buffer ← writeByte buffer 2 c
      let buffer ← writeByte buffer 3 d
      return (buffer, 4)) = (.ok (overwrite buffer 0 [a, b, c, d], 4) : Access (Bytes × ℕ)) := by
  rw [writeByte_of_lt (by omega), Access.ok_bind, writeByte_of_lt (by rw [List.length_set]; omega),
    Access.ok_bind, writeByte_of_lt (by rw [List.length_set, List.length_set]; omega), Access.ok_bind,
    writeByte_of_lt (by rw [List.length_set, List.length_set, List.length_set]; omega), Access.ok_bind,
    set_eq_overwrite (by rw [List.length_set, List.length_set, List.length_set]; omega),
    overwrite_set_cons (by rw [List.length_set, List.length_set]; omega),
    overwrite_set_cons (by rw [List.length_set]; omega), overwrite_set_cons (by omega)]
  rfl

end Writing

/-- **What `UTF8Encode` writes and returns.** -/
theorem utf8Encode_eq (buffer : Bytes) (value : UInt64) :
    utf8Encode buffer value
      = .ok (if value.toNat ≤ 0x1FFFFF ∧ (encoding value.toNat).length ≤ buffer.length
          then (overwrite buffer 0 (encoding value.toNat), (encoding value.toNat).length)
          else (buffer, 0)) := by
  have hone : value ≤ 0x7F ↔ value.toNat ≤ 0x7F := UInt64.le_iff_toNat_le
  have htwo : value ≤ 0x7FF ↔ value.toNat ≤ 0x7FF := UInt64.le_iff_toNat_le
  have hthree : value ≤ 0xFFFF ↔ value.toNat ≤ 0xFFFF := UInt64.le_iff_toNat_le
  have hfour : value ≤ 0x1FFFFF ↔ value.toNat ≤ 0x1FFFFF := UInt64.le_iff_toNat_le
  obtain ⟨hshift₆, hnat₆⟩ := toUInt8_shift (k := 6) value (s := 6) rfl (by decide)
  obtain ⟨hshift₁₂, hnat₁₂⟩ := toUInt8_shift (k := 12) value (s := 12) rfl (by decide)
  obtain ⟨hshift₁₈, -⟩ := toUInt8_shift (k := 18) value (s := 18) rfl (by decide)
  have hlength := length_encoding value.toNat
  rw [utf8Encode]
  simp only [hone, htwo, hthree, hfour]
  by_cases h₁ : value.toNat ≤ 0x7F
  · rw [if_pos h₁] at hlength
    by_cases hroom : 1 ≤ buffer.length
    · rw [if_pos ⟨h₁, hroom⟩, if_pos ⟨by omega, by omega⟩, write_one _ hroom, hlength, encoding_one h₁,
        UInt8.ofNat_uInt64ToNat]
    · rw [if_neg (by omega), if_neg (by omega), if_neg (by omega), if_neg (by omega), if_neg (by omega)]
      rfl
  rw [if_neg (fun h => h₁ h.1)]
  rw [if_neg h₁] at hlength
  by_cases h₂ : value.toNat ≤ 0x7FF
  · rw [if_pos h₂] at hlength
    by_cases hroom : 2 ≤ buffer.length
    · rw [if_pos ⟨h₂, hroom⟩, if_pos ⟨by omega, by omega⟩, write_two _ _ hroom, hlength,
        encoding_two (by omega) h₂, hshift₆, marks.1 _ (by omega), mark_tail]
    · rw [if_neg (by omega), if_neg (by omega), if_neg (by omega), if_neg (by omega)]
      rfl
  rw [if_neg (fun h => h₂ h.1)]
  rw [if_neg h₂] at hlength
  by_cases h₃ : value.toNat ≤ 0xFFFF
  · rw [if_pos h₃] at hlength
    by_cases hroom : 3 ≤ buffer.length
    · rw [if_pos ⟨h₃, hroom⟩, if_pos ⟨by omega, by omega⟩, write_three _ _ _ hroom, hlength,
        encoding_three (by omega) h₃, hshift₁₂, marks.2.1 _ (by omega), mark_tail, mark_tail, hnat₆]
    · rw [if_neg (by omega), if_neg (by omega), if_neg (by omega)]
      rfl
  rw [if_neg (fun h => h₃ h.1)]
  rw [if_neg h₃] at hlength
  by_cases h₄ : value.toNat ≤ 0x1FFFFF ∧ 4 ≤ buffer.length
  · obtain ⟨hvalue, hroom⟩ := h₄
    rw [if_pos ⟨hvalue, hroom⟩, if_pos ⟨hvalue, by omega⟩, write_four _ _ _ _ hroom, hlength,
      encoding_four (by omega), hshift₁₈, marks.2.2.1 _ (by omega), mark_tail, mark_tail, mark_tail, hnat₆,
      hnat₁₂]
  · rw [if_neg h₄, if_neg (by omega)]
    rfl

/-! ### Streams -/

theorem encoding_ne_nil (v : ℕ) : encoding v ≠ [] := by
  rw [← List.length_pos_iff, length_encoding]
  split_ifs <;> decide

theorem length_encoding_le (v : ℕ) : (encoding v).length ≤ 4 := by
  rw [length_encoding]
  split_ifs <;> decide

theorem encodeEach_eq {values : List UInt64} (hvalues : ∀ v ∈ values, v.toNat ≤ 0x1FFFFF) {buffer : Bytes}
    (hbuffer : 4 ≤ buffer.length) :
    encodeEach buffer values = .ok (values.flatMap fun v => encoding v.toNat) := by
  induction values generalizing buffer with
  | nil => rfl
  | cons v values ih =>
    rw [List.forall_mem_cons] at hvalues
    have hle := length_encoding_le v.toNat
    have hlength : (overwrite buffer 0 (encoding v.toNat)).length = buffer.length := by
      rw [length_overwrite (Nat.zero_le _)]
      omega
    have htake := take_drop_overwrite (Nat.zero_le buffer.length) (encoding v.toNat) []
    rw [List.append_nil] at htake
    rw [encodeEach, utf8Encode_eq, if_pos ⟨hvalues.1, by omega⟩, Access.ok_bind]
    dsimp only
    rw [readBytes_of_le (by omega), htake, Access.ok_bind, ih hvalues.2 (by omega)]
    rfl

/-- From a sequence on, whatever follows. -/
theorem decodeEach_append {s : Bytes} {v : ℕ} (h : Accepted s v) (hne : s ≠ []) (rest : Bytes) (k : ℕ) :
    decodeEach (k + 1) (s ++ rest)
      = decodeEach k rest >>= fun p => .ok (UInt64.ofNat v :: p.1, p.2) := by
  have hdecode := utf8Decode_append h rest 0
  have hdrop : (s ++ rest).drop s.length = rest := List.drop_left
  have hpos : s.length ≠ 0 := mt List.length_eq_zero_iff.mp hne
  cases hsource : s ++ rest with
  | nil => exact absurd (List.append_eq_nil_iff.mp hsource).1 hne
  | cons c source =>
    rw [hsource] at hdecode hdrop
    rw [decodeEach, hdecode, Access.ok_bind]
    · dsimp only
      rw [if_neg hpos, hdrop]
      rfl
    · exact List.cons_ne_nil c source

/-- **A stream is decoded again**, and nothing is left. -/
theorem decodeEach_flatMap {values : List UInt64} (hvalues : ∀ v ∈ values, v.toNat ≤ 0x1FFFFF) {k : ℕ}
    (hk : values.length ≤ k) :
    decodeEach k (values.flatMap fun v => encoding v.toNat) = .ok (values, []) := by
  induction values generalizing k with
  | nil => cases k <;> rfl
  | cons v values ih =>
    rw [List.forall_mem_cons] at hvalues
    rw [List.length_cons] at hk
    obtain ⟨k, rfl⟩ : ∃ m, k = m + 1 := ⟨k - 1, by omega⟩
    rw [List.flatMap_cons, decodeEach_append (accepted_encoding hvalues.1) (encoding_ne_nil _),
      ih hvalues.2 (by omega), Access.ok_bind, UInt64.ofNat_toNat]

theorem toNat_ofNat_accepted {s : Bytes} {v : ℕ} (h : Accepted s v) : (UInt64.ofNat v).toNat = v := by
  have hv := h.encoding.1
  exact UInt64.toNat_ofNat_of_lt' (hv.trans_lt (by decide))

/-- What is decoded is a sequence for the value. -/
theorem accepted_of_utf8Decode {source : Bytes} {value v : UInt64} {n : ℕ}
    (h : utf8Decode source value = .ok (n, v)) (hn : n ≠ 0) :
    ∃ s rest, Accepted s v.toNat ∧ source = s ++ rest ∧ s.length = n := by
  have hne : source ≠ [] := by
    rintro rfl
    cases h
  rcases utf8Decode_outcome hne value with ⟨s, u, rest, haccepted, rfl⟩ | hfail
  · rw [utf8Decode_append haccepted] at h
    obtain ⟨rfl, rfl⟩ := Prod.mk.inj (Except.ok.inj h)
    refine ⟨s, rest, ?_, rfl, rfl⟩
    rwa [toNat_ofNat_accepted haccepted]
  · rw [hfail] at h
    exact absurd (Prod.mk.inj (Except.ok.inj h)).1.symm hn

/-- **Encoding**: a stream of code points is decoded again, to its end; for every value and buffer the shortest
sequence is written, or nothing. -/
theorem utf8_stream :
    (∀ (values : List UInt64) (buffer : Bytes), (∀ v ∈ values, v.toNat ≤ 0x1FFFFF) → 4 ≤ buffer.length →
      ∃ text, encodeEach buffer values = .ok text ∧
        ∀ k, values.length ≤ k → decodeEach k text = .ok (values, [])) ∧
    (∀ (buffer : Bytes) (value : UInt64), utf8Encode buffer value
      = .ok (if value.toNat ≤ 0x1FFFFF ∧ (encoding value.toNat).length ≤ buffer.length
          then (overwrite buffer 0 (encoding value.toNat), (encoding value.toNat).length)
          else (buffer, 0))) ∧
    ∀ (source : Bytes) (value v : UInt64) (n : ℕ), utf8Decode source value = .ok (n, v) → n ≠ 0 →
      (encoding v.toNat).length ≤ n := by
  refine ⟨?_, utf8Encode_eq, ?_⟩
  · intro values buffer hvalues hbuffer
    exact ⟨_, encodeEach_eq hvalues hbuffer, fun k hk => decodeEach_flatMap hvalues hk⟩
  · intro source value v n hdecode hn
    obtain ⟨s, rest, haccepted, -, rfl⟩ := accepted_of_utf8Decode hdecode hn
    exact encoding_minimal haccepted

/-! ### What is accepted -/

/-- What is promised of a source: the bytes that are decoded are the ones that would be written. -/
def DecodesShortest (source : Bytes) : Prop :=
  ∀ value, ∃ n v, utf8Decode source value = .ok (n, v) ∧ (n ≠ 0 → n ≤ source.length ∧
    ∀ buffer : Bytes, 4 ≤ buffer.length → utf8Encode buffer v = .ok (overwrite buffer 0 (source.take n), n))

theorem Overlong.accepted {s : Bytes} (h : Overlong s) : ∃ v, Accepted s v := by
  cases h with
  | two h₀ h₁ =>
    refine ⟨_, .two ?_ h₁⟩
    rcases h₀ with rfl | rfl <;> decide
  | three h₁ _ h₂ => exact ⟨_, .three (by decide) h₁ h₂⟩
  | four h₁ _ h₂ h₃ => exact ⟨_, .four (by decide) h₁ h₂ h₃⟩

/-- **Decoding**: overlong sequences are accepted, and no other ones that would not be written. -/
theorem decodesShortest_iff (s₀ : UInt8) (source : Bytes) : DecodesShortest (s₀ :: source) ↔
    ¬ ∃ s rest, Overlong s ∧ s₀ :: source = s ++ rest := by
  constructor
  · rintro h ⟨s, rest, hlong, hsource⟩
    obtain ⟨u, haccepted⟩ := hlong.accepted
    have hu := toNat_ofNat_accepted haccepted
    obtain ⟨n, v, hdecode, hwritten⟩ := h 0
    rw [hsource, utf8Decode_append haccepted] at hdecode
    obtain ⟨rfl, rfl⟩ := Prod.mk.inj (Except.ok.inj hdecode)
    have hpos : s.length ≠ 0 := by
      cases hlong <;> exact Nat.succ_ne_zero _
    have hencode := (hwritten hpos).2 [0, 0, 0, 0] (by decide)
    have hlength := length_encoding_le u
    rw [utf8Encode_eq, hu, if_pos ⟨haccepted.encoding.1, hlength⟩] at hencode
    have hsame : (encoding u).length = s.length := (Prod.mk.inj (Except.ok.inj hencode)).2
    rcases haccepted.encoding.2 with ⟨hlt, -⟩ | ⟨-, hnot⟩
    · omega
    · exact hnot hlong
  · intro hshort value
    rcases utf8Decode_outcome (List.cons_ne_nil s₀ source) value with ⟨s, u, rest, haccepted, hsource⟩ | hfail
    · have hu := toNat_ofNat_accepted haccepted
      have hencoding : encoding u = s := by
        rcases haccepted.encoding.2 with ⟨-, hlong⟩ | ⟨heq, -⟩
        · exact absurd ⟨s, rest, hlong, hsource⟩ hshort
        · exact heq
      have hlength := length_encoding_le u
      rw [hencoding] at hlength
      rw [hsource]
      refine ⟨_, _, utf8Decode_append haccepted rest value, ?_⟩
      intro _
      refine ⟨by rw [List.length_append]; omega, ?_⟩
      intro buffer hbuffer
      rw [utf8Encode_eq, hu, hencoding, if_pos ⟨haccepted.encoding.1, by omega⟩, List.take_left]
    · exact ⟨0, value, hfail, fun hn => absurd rfl hn⟩

/-- `C0 80` is decoded to a NUL character. -/
theorem utf8Decode_accepts_overlong : utf8Decode [0xC0, 0x80] 7 = .ok (2, 0) ∧
    ¬ DecodesShortest [0xC0, 0x80] := by
  refine ⟨by decide, ?_⟩
  intro h
  obtain ⟨n, v, hdecode, hwritten⟩ := h 7
  have htwo : utf8Decode [0xC0, 0x80] 7 = .ok (2, 0) := by decide
  rw [htwo] at hdecode
  obtain ⟨rfl, rfl⟩ := Prod.mk.inj (Except.ok.inj hdecode)
  exact absurd ((hwritten (by decide)).2 [0, 0, 0, 0] (by decide)) (by decide)

end LearnNetlib
