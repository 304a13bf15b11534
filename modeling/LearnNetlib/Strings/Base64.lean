import LearnNetlib.Base.Bytes
import LearnNetlib.Foundations.Numeral

/-!
# Base 64

* `base64Encode`, `base64Decode` — the code of `base/strings/base64.cc`; `in_len` is `unsigned int` in one
  and `int` in the other;
* `encoded` — what is written: three bytes as the same number in base 64; `bytesOf` — what it is read as;
* `WellFormed` — groups of four, the last one padded: **`wellFormed_iff`**, what some string is encoded as;
* **`base64Decode_encoded`** — shorter than `2 ^ 31`, an encoding is decoded to what was encoded;
  `decodeLoop_overflow` — a longer one makes `in_len` overflow;
* **`roundTrips_iff`**, **`acceptsEncodings_iff`** — which strings survive, and which are judged rightly.
-/

namespace LearnNetlib.Strings

/-! ### The code -/

/-- `base64_chars`. -/
def base64Chars : Bytes :=
  "ABCDEFGHIJKLMNOPQRSTUVWXYZabcdefghijklmnopqrstuvwxyz0123456789+/".toList.map Char.toUInt8

/-- `ascii_isalnum`. -/
def asciiIsalnum (c : UInt8) : Bool :=
  ('a'.toUInt8 ≤ c ∧ c ≤ 'z'.toUInt8) ∨ ('A'.toUInt8 ≤ c ∧ c ≤ 'Z'.toUInt8) ∨
    ('0'.toUInt8 ≤ c ∧ c ≤ '9'.toUInt8)

/-- `is_base64`. -/
def isBase64 (c : UInt8) : Bool := asciiIsalnum c || c = '+'.toUInt8 || c = '/'.toUInt8

/-- `base64_chars[s]`. -/
def base64Char (s : UInt8) : UInt8 := base64Chars.getD s.toNat 0

/-- `char_array_4` from `char_array_3`; places that are not filled hold 0. -/
def charArray4 (array : Bytes) : Bytes :=
  let a := array.getD 0 0
  let b := array.getD 1 0
  let c := array.getD 2 0
  [(a &&& 0xfc) >>> 2, ((a &&& 0x03) <<< 4) + ((b &&& 0xf0) >>> 4),
    ((b &&& 0x0f) <<< 2) + ((c &&& 0xc0) >>> 6), c &&& 0x3f]

/-- The loop of `base64_encode`: what is in `char_array_3`, and `ret`. -/
def encodeLoop : Bytes → Bytes → Bytes → Bytes × Bytes
  | [], array, ret => (array, ret)
  | x :: rest, array, ret =>
    let array := array ++ [x]
    if array.length = 3 then encodeLoop rest [] (ret ++ (charArray4 array).map base64Char)
    else encodeLoop rest array ret

/-- What follows the loop. -/
def encodeTail (array : Bytes) : Bytes :=
  if array.length ≠ 0 then
    ((charArray4 array).take (array.length + 1)).map base64Char
      ++ List.replicate (3 - array.length) '='.toUInt8
  else []

/-- `Base64Encode`; `in_len` is an `unsigned int`, and the loop goes through as many bytes. -/
def base64Encode (src : Bytes) : Bytes :=
  let inLen := src.length % 2 ^ 32
  let (array, ret) := encodeLoop (src.take inLen) [] []
  ret ++ encodeTail array

/-- `base64_chars.find(c)`, as an `unsigned char`; `npos` is 255. -/
def findBase64 (c : UInt8) : UInt8 :=
  match base64Chars.idxOf? c with
  | some i => UInt8.ofNat i
  | none => 255

/-- `char_array_3` from `char_array_4`; places that are not filled hold 0. -/
def charArray3 (array : Bytes) : Bytes :=
  let a := findBase64 (array.getD 0 0)
  let b := findBase64 (array.getD 1 0)
  let c := findBase64 (array.getD 2 0)
  let d := findBase64 (array.getD 3 0)
  [(a <<< 2) + ((b &&& 0x30) >>> 4), ((b &&& 0xf) <<< 4) + ((c &&& 0x3c) >>> 2), ((c &&& 0x3) <<< 6) + d]

/-- The loop of `base64_decode`, from `encoded_string[in_]` on: what is in `char_array_4`, and `ret`. There is
no result when `in_len` or `in_`, which are `int`, overflow. -/
def decodeLoop : Bytes → ℤ → ℤ → Bytes → Bytes → Option (Bytes × Bytes)
  | rest, inLen, in_, array, ret =>
    if inLen = 0 then some (array, ret)
    else if inLen = -2 ^ 31 then none
    else
      match rest with
      -- the character behind the last one is NUL
      | [] => some (array, ret)
      | c :: rest =>
        if c ≠ '='.toUInt8 ∧ isBase64 c = true then
          if in_ = 2 ^ 31 - 1 then none
          else
            let array := array ++ [c]
            if array.length = 4 then decodeLoop rest (inLen - 1) (in_ + 1) [] (ret ++ charArray3 array)
            else decodeLoop rest (inLen - 1) (in_ + 1) array ret
        else some (array, ret)

/-- What follows the loop. -/
def decodeTail (array : Bytes) : Bytes :=
  if array.length ≠ 0 then (charArray3 array).take (array.length - 1) else []

/-- `Base64Decode`: what is returned, and `*dest`. -/
def base64Decode (src : Bytes) : Option (Bool × Bytes) := do
  let inLen := (src.length : ℤ).bmod (2 ^ 32)
  let (array, ret) ← decodeLoop src inLen 0 [] []
  return (true, ret ++ decodeTail array)

/-! ### The alphabet -/

/-- The place in the alphabet. -/
def sextet (c : UInt8) : ℕ := base64Chars.idxOf c

/-- The character at a place. -/
def base64CharAt (s : ℕ) : UInt8 := base64Chars.getD s 0

theorem base64Chars_eq : base64Chars = [
    65, 66, 67, 68, 69, 70, 71, 72, 73, 74, 75, 76, 77, 78, 79, 80, 81, 82, 83, 84, 85, 86, 87, 88, 89,
    90, 97, 98, 99, 100, 101, 102, 103, 104, 105, 106, 107, 108, 109, 110, 111, 112, 113, 114, 115, 116,
    117, 118, 119, 120, 121, 122, 48, 49, 50, 51, 52, 53, 54, 55, 56, 57, 43, 47] := by
  decide +kernel

theorem base64CharAt_spec : ∀ s < 64, isBase64 (base64CharAt s) = true ∧
    base64CharAt s ≠ '='.toUInt8 ∧ sextet (base64CharAt s) = s := by
  simp only [base64CharAt, sextet, base64Chars_eq]
  decide +kernel

theorem sextet_spec {c : UInt8} : isBase64 c = true →
    c ≠ '='.toUInt8 ∧ sextet c < 64 ∧ base64CharAt (sextet c) = c ∧ c ∈ base64Chars := by
  simp only [base64CharAt, sextet, base64Chars_eq]
  revert c
  apply forall_byte
  decide +kernel

theorem toNat_findBase64 {c : UInt8} : isBase64 c = true → (findBase64 c).toNat = sextet c := by
  simp only [findBase64, sextet, base64Chars_eq]
  revert c
  apply forall_byte
  decide +kernel

/-! ### Three bytes and four characters -/

/-- The bits of a byte that `charArray4` moves. -/
theorem bits_encode (a : UInt8) :
    ((a &&& 0xfc) >>> 2).toNat = a.toNat / 4 ∧ ((a &&& 0x03) <<< 4).toNat = a.toNat % 4 * 16 ∧
      ((a &&& 0xf0) >>> 4).toNat = a.toNat / 16 ∧ ((a &&& 0x0f) <<< 2).toNat = a.toNat % 16 * 4 ∧
      ((a &&& 0xc0) >>> 6).toNat = a.toNat / 64 ∧ (a &&& 0x3f).toNat = a.toNat % 64 := by
  revert a
  exact forall_byte (by decide +kernel)

/-- The bits of a sextet that `charArray3` moves. -/
theorem bits_decode (a : UInt8) :
    (a <<< 2).toNat = a.toNat * 4 % 256 ∧ ((a &&& 0x30) >>> 4).toNat = a.toNat / 16 % 4 ∧
      ((a &&& 0xf) <<< 4).toNat = a.toNat % 16 * 16 ∧ ((a &&& 0x3c) >>> 2).toNat = a.toNat / 4 % 16 ∧
      ((a &&& 0x3) <<< 6).toNat = a.toNat % 4 * 64 := by
  revert a
  exact forall_byte (by decide +kernel)

/-- Three bytes as a number, in base 64. -/
def sextets (a b c : UInt8) : List ℕ := Numeral.numeral 64 4 (Numeral.value 256 [a.toNat, b.toNat, c.toNat])

/-- The characters of up to three bytes: one more than bytes. -/
def quantum (g : Bytes) : Bytes :=
  ((sextets (g.getD 0 0) (g.getD 1 0) (g.getD 2 0)).take (g.length + 1)).map base64CharAt

/-- The bytes of up to four characters: one less than characters. -/
def octets (cs : Bytes) : Bytes :=
  let s := cs.map sextet
  ((Numeral.numeral 256 3 (Numeral.value 64 [s.getD 0 0, s.getD 1 0, s.getD 2 0, s.getD 3 0])).take
    (cs.length - 1)).map UInt8.ofNat

theorem sextets_eq (a b c : UInt8) : sextets a b c
    = [a.toNat / 4, a.toNat % 4 * 16 + b.toNat / 16, b.toNat % 16 * 4 + c.toNat / 64, c.toNat % 64] := by
  have ha := a.toNat_lt
  have hb := b.toNat_lt
  have hc := c.toNat_lt
  simp only [sextets, Numeral.numeral, Numeral.value, List.foldl_cons, List.foldl_nil, List.nil_append,
    List.cons_append, List.cons.injEq, and_true]
  omega

theorem octets_eq {s₀ s₁ s₂ s₃ : ℕ} (h₀ : s₀ < 64) (h₁ : s₁ < 64) (h₂ : s₂ < 64) (h₃ : s₃ < 64) :
    Numeral.numeral 256 3 (Numeral.value 64 [s₀, s₁, s₂, s₃])
      = [s₀ * 4 + s₁ / 16, s₁ % 16 * 16 + s₂ / 4, s₂ % 4 * 64 + s₃] := by
  simp only [Numeral.numeral, Numeral.value, List.foldl_cons, List.foldl_nil, List.nil_append,
    List.cons_append, List.cons.injEq, and_true]
  omega

/-- What `charArray4` computes. -/
theorem charArray4_eq (g : Bytes) :
    (charArray4 g).map UInt8.toNat = sextets (g.getD 0 0) (g.getD 1 0) (g.getD 2 0) := by
  have ha := bits_encode (g.getD 0 0)
  have hb := bits_encode (g.getD 1 0)
  have hc := bits_encode (g.getD 2 0)
  have hlt (n : UInt8) := n.toNat_lt
  have ha' := hlt (g.getD 0 0)
  have hb' := hlt (g.getD 1 0)
  have hc' := hlt (g.getD 2 0)
  rw [sextets_eq, charArray4]
  simp only [List.map_cons, List.map_nil, UInt8.toNat_add, ha, hb, hc, List.cons.injEq, and_true, true_and]
  omega

theorem map_base64Char (g : Bytes) : ((charArray4 g).take (g.length + 1)).map base64Char = quantum g := by
  rw [quantum, ← charArray4_eq, ← List.map_take, List.map_map]
  rfl

section Bytes

variable {c₀ c₁ : UInt8} (h₀ : isBase64 c₀ = true) (h₁ : isBase64 c₁ = true)
include h₀ h₁

theorem first_byte : (findBase64 c₀ <<< 2) + ((findBase64 c₁ &&& 0x30) >>> 4)
    = UInt8.ofNat (sextet c₀ * 4 + sextet c₁ / 16) := by
  have hbits₀ := bits_decode (findBase64 c₀)
  have hbits₁ := bits_decode (findBase64 c₁)
  rw [toNat_findBase64 h₀] at hbits₀
  rw [toNat_findBase64 h₁] at hbits₁
  have hlt₀ := (sextet_spec h₀).2.1
  have hlt₁ := (sextet_spec h₁).2.1
  rw [← UInt8.toNat_inj, UInt8.toNat_add, hbits₀.1, hbits₁.2.1, UInt8.toNat_ofNat']
  omega

theorem second_byte : ((findBase64 c₀ &&& 0xf) <<< 4) + ((findBase64 c₁ &&& 0x3c) >>> 2)
    = UInt8.ofNat (sextet c₀ % 16 * 16 + sextet c₁ / 4) := by
  have hbits₀ := bits_decode (findBase64 c₀)
  have hbits₁ := bits_decode (findBase64 c₁)
  rw [toNat_findBase64 h₀] at hbits₀
  rw [toNat_findBase64 h₁] at hbits₁
  have hlt₁ := (sextet_spec h₁).2.1
  rw [← UInt8.toNat_inj, UInt8.toNat_add, hbits₀.2.2.1, hbits₁.2.2.2.1, UInt8.toNat_ofNat']
  omega

theorem third_byte : ((findBase64 c₀ &&& 0x3) <<< 6) + findBase64 c₁
    = UInt8.ofNat (sextet c₀ % 4 * 64 + sextet c₁) := by
  have hbits₀ := bits_decode (findBase64 c₀)
  rw [toNat_findBase64 h₀] at hbits₀
  rw [← UInt8.toNat_inj, UInt8.toNat_add, hbits₀.2.2.2.2, toNat_findBase64 h₁, UInt8.toNat_ofNat']

end Bytes

theorem octets_two {c₀ c₁ : UInt8} (h₀ : isBase64 c₀ = true) (h₁ : isBase64 c₁ = true) :
    octets [c₀, c₁] = [UInt8.ofNat (sextet c₀ * 4 + sextet c₁ / 16)] := by
  rw [octets, List.map_cons, List.map_cons, List.map_nil]
  simp only [List.getD_cons_zero, List.getD_cons_succ, List.getD_nil]
  rw [octets_eq (sextet_spec h₀).2.1 (sextet_spec h₁).2.1 (by decide) (by decide)]
  rfl

theorem octets_three {c₀ c₁ c₂ : UInt8} (h₀ : isBase64 c₀ = true) (h₁ : isBase64 c₁ = true)
    (h₂ : isBase64 c₂ = true) :
    octets [c₀, c₁, c₂] = [UInt8.ofNat (sextet c₀ * 4 + sextet c₁ / 16),
      UInt8.ofNat (sextet c₁ % 16 * 16 + sextet c₂ / 4)] := by
  rw [octets, List.map_cons, List.map_cons, List.map_cons, List.map_nil]
  simp only [List.getD_cons_zero, List.getD_cons_succ, List.getD_nil]
  rw [octets_eq (sextet_spec h₀).2.1 (sextet_spec h₁).2.1 (sextet_spec h₂).2.1 (by decide)]
  rfl

theorem octets_four {c₀ c₁ c₂ c₃ : UInt8} (h₀ : isBase64 c₀ = true) (h₁ : isBase64 c₁ = true)
    (h₂ : isBase64 c₂ = true) (h₃ : isBase64 c₃ = true) :
    octets [c₀, c₁, c₂, c₃] = [UInt8.ofNat (sextet c₀ * 4 + sextet c₁ / 16),
      UInt8.ofNat (sextet c₁ % 16 * 16 + sextet c₂ / 4), UInt8.ofNat (sextet c₂ % 4 * 64 + sextet c₃)] := by
  rw [octets, List.map_cons, List.map_cons, List.map_cons, List.map_cons, List.map_nil]
  simp only [List.getD_cons_zero, List.getD_cons_succ]
  rw [octets_eq (sextet_spec h₀).2.1 (sextet_spec h₁).2.1 (sextet_spec h₂).2.1 (sextet_spec h₃).2.1]
  rfl

/-- What `charArray3` computes; what fills the array does not reach the bytes that count. -/
theorem charArray3_eq {cs : Bytes} (hcs : ∀ c ∈ cs, isBase64 c = true) (htwo : 2 ≤ cs.length)
    (hfour : cs.length ≤ 4) : (charArray3 cs).take (cs.length - 1) = octets cs := by
  rcases cs with _ | ⟨c₀, _ | ⟨c₁, _ | ⟨c₂, _ | ⟨c₃, _ | ⟨c₄, cs⟩⟩⟩⟩⟩
  · exact absurd htwo (by decide)
  · exact absurd htwo (by simp)
  · have h₀ := hcs c₀ (by simp)
    have h₁ := hcs c₁ (by simp)
    rw [octets_two h₀ h₁, ← first_byte h₀ h₁]
    rfl
  · have h₀ := hcs c₀ (by simp)
    have h₁ := hcs c₁ (by simp)
    have h₂ := hcs c₂ (by simp)
    rw [octets_three h₀ h₁ h₂, ← first_byte h₀ h₁, ← second_byte h₁ h₂]
    rfl
  · have h₀ := hcs c₀ (by simp)
    have h₁ := hcs c₁ (by simp)
    have h₂ := hcs c₂ (by simp)
    have h₃ := hcs c₃ (by simp)
    rw [octets_four h₀ h₁ h₂ h₃, ← first_byte h₀ h₁, ← second_byte h₁ h₂, ← third_byte h₂ h₃]
    rfl
  · simp only [List.length_cons] at hfour
    omega

theorem quantum_one (a : UInt8) :
    quantum [a] = [base64CharAt (a.toNat / 4), base64CharAt (a.toNat % 4 * 16)] := by
  show ((sextets a 0 0).take 2).map _ = _
  rw [sextets_eq]
  rfl

theorem quantum_two (a b : UInt8) :
    quantum [a, b] = [base64CharAt (a.toNat / 4), base64CharAt (a.toNat % 4 * 16 + b.toNat / 16),
      base64CharAt (b.toNat % 16 * 4)] := by
  show ((sextets a b 0).take 3).map _ = _
  rw [sextets_eq]
  rfl

theorem quantum_three (a b c : UInt8) :
    quantum [a, b, c] = [base64CharAt (a.toNat / 4), base64CharAt (a.toNat % 4 * 16 + b.toNat / 16),
      base64CharAt (b.toNat % 16 * 4 + c.toNat / 64), base64CharAt (c.toNat % 64)] := by
  show ((sextets a b c).take 4).map _ = _
  rw [sextets_eq]
  rfl

theorem sextets_lt (a b c : UInt8) : ∀ s ∈ sextets a b c, s < 64 := Numeral.numeral_lt (by decide) 4 _

theorem isBase64_quantum (g : Bytes) : ∀ c ∈ quantum g, isBase64 c = true :=
  List.forall_mem_map.mpr fun s hs =>
    (base64CharAt_spec s (sextets_lt _ _ _ s (List.mem_of_mem_take hs))).1

theorem length_quantum {g : Bytes} (hg : g.length ≤ 3) : (quantum g).length = g.length + 1 := by
  rw [quantum, List.length_map, List.length_take, sextets, Numeral.numeral_length]
  omega

/-- The number is the same in base 256. -/
theorem numeral_sextets (a b c : UInt8) :
    Numeral.numeral 256 3 (Numeral.value 64 (sextets a b c)) = [a.toNat, b.toNat, c.toNat] := by
  have hlt : ∀ d ∈ [a.toNat, b.toNat, c.toNat], d < 256 := by
    simp only [List.forall_mem_cons, List.not_mem_nil, false_implies, implies_true, and_true]
    exact ⟨a.toNat_lt, b.toNat_lt, c.toNat_lt⟩
  have hvalue : Numeral.value 256 [a.toNat, b.toNat, c.toNat] < 64 ^ 4 :=
    (Numeral.value_lt hlt).trans_eq (by norm_num)
  rw [sextets, Numeral.value_numeral, Nat.mod_eq_of_lt hvalue]
  exact Numeral.numeral_value hlt

/-- **Up to three bytes are read back.** -/
theorem octets_quantum {g : Bytes} (hne : g ≠ []) (hg : g.length ≤ 3) : octets (quantum g) = g := by
  have hback : (quantum g).map sextet
      = (sextets (g.getD 0 0) (g.getD 1 0) (g.getD 2 0)).take (g.length + 1) :=
    Numeral.map_map_of_forall fun s hs =>
      (base64CharAt_spec s (sextets_lt _ _ _ s (List.mem_of_mem_take hs))).2.2
  -- the characters that are left out stand for zeros
  have hfill : [((quantum g).map sextet).getD 0 0, ((quantum g).map sextet).getD 1 0,
      ((quantum g).map sextet).getD 2 0, ((quantum g).map sextet).getD 3 0]
        = sextets (g.getD 0 0) (g.getD 1 0) (g.getD 2 0) := by
    rw [hback, sextets_eq]
    rcases g with _ | ⟨a, _ | ⟨b, _ | ⟨c, _ | ⟨d, g⟩⟩⟩⟩
    · exact absurd rfl hne
    · simp
    · simp
    · rfl
    · simp only [List.length_cons] at hg
      omega
  show ((Numeral.numeral 256 3 (Numeral.value 64 [_, _, _, _])).take _).map UInt8.ofNat = g
  rw [hfill, numeral_sextets, length_quantum hg, Nat.add_sub_cancel]
  rcases g with _ | ⟨a, _ | ⟨b, _ | ⟨c, _ | ⟨d, g⟩⟩⟩⟩
  · exact absurd rfl hne
  · show [UInt8.ofNat a.toNat] = [a]
    rw [UInt8.ofNat_toNat]
  · show [UInt8.ofNat a.toNat, UInt8.ofNat b.toNat] = [a, b]
    rw [UInt8.ofNat_toNat, UInt8.ofNat_toNat]
  · show [UInt8.ofNat a.toNat, UInt8.ofNat b.toNat, UInt8.ofNat c.toNat] = [a, b, c]
    rw [UInt8.ofNat_toNat, UInt8.ofNat_toNat, UInt8.ofNat_toNat]
  · simp only [List.length_cons] at hg
    omega

/-- The number is the same in base 64. -/
theorem sextets_octets {s₀ s₁ s₂ s₃ : ℕ} (h₀ : s₀ < 64) (h₁ : s₁ < 64) (h₂ : s₂ < 64) (h₃ : s₃ < 64) :
    sextets (UInt8.ofNat (s₀ * 4 + s₁ / 16)) (UInt8.ofNat (s₁ % 16 * 16 + s₂ / 4))
      (UInt8.ofNat (s₂ % 4 * 64 + s₃)) = [s₀, s₁, s₂, s₃] := by
  have hsize : UInt8.size = 256 := rfl
  rw [sextets_eq, UInt8.toNat_ofNat_of_lt' (by omega), UInt8.toNat_ofNat_of_lt' (by omega),
    UInt8.toNat_ofNat_of_lt' (by omega)]
  simp only [List.cons.injEq, and_true]
  omega

/-- Characters are written again, if the bits that are left over are zero. -/
theorem quantum_octets_two {c₀ c₁ : UInt8} (h₀ : isBase64 c₀ = true) (h₁ : isBase64 c₁ = true)
    (hzero : sextet c₁ % 16 = 0) : quantum (octets [c₀, c₁]) = [c₀, c₁] := by
  obtain ⟨-, hlt₀, hback₀, -⟩ := sextet_spec h₀
  obtain ⟨-, hlt₁, hback₁, -⟩ := sextet_spec h₁
  have hsextets := sextets_octets hlt₀ hlt₁ (by decide : 0 < 64) (by decide : 0 < 64)
  rw [hzero] at hsextets
  have hquantum : quantum (octets [c₀, c₁]) = ([sextet c₀, sextet c₁, 0, 0].take 2).map base64CharAt := by
    rw [octets_two h₀ h₁, ← hsextets]
    rfl
  rw [hquantum]
  show [base64CharAt _, base64CharAt _] = _
  rw [hback₀, hback₁]

theorem quantum_octets_three {c₀ c₁ c₂ : UInt8} (h₀ : isBase64 c₀ = true) (h₁ : isBase64 c₁ = true)
    (h₂ : isBase64 c₂ = true) (hzero : sextet c₂ % 4 = 0) :
    quantum (octets [c₀, c₁, c₂]) = [c₀, c₁, c₂] := by
  obtain ⟨-, hlt₀, hback₀, -⟩ := sextet_spec h₀
  obtain ⟨-, hlt₁, hback₁, -⟩ := sextet_spec h₁
  obtain ⟨-, hlt₂, hback₂, -⟩ := sextet_spec h₂
  have hsextets := sextets_octets hlt₀ hlt₁ hlt₂ (by decide : 0 < 64)
  rw [hzero] at hsextets
  have hquantum : quantum (octets [c₀, c₁, c₂])
      = ([sextet c₀, sextet c₁, sextet c₂, 0].take 3).map base64CharAt := by
    rw [octets_three h₀ h₁ h₂, ← hsextets]
    rfl
  rw [hquantum]
  show [base64CharAt _, base64CharAt _, base64CharAt _] = _
  rw [hback₀, hback₁, hback₂]

theorem quantum_octets_four {c₀ c₁ c₂ c₃ : UInt8} (h₀ : isBase64 c₀ = true) (h₁ : isBase64 c₁ = true)
    (h₂ : isBase64 c₂ = true) (h₃ : isBase64 c₃ = true) :
    quantum (octets [c₀, c₁, c₂, c₃]) = [c₀, c₁, c₂, c₃] := by
  obtain ⟨-, hlt₀, hback₀, -⟩ := sextet_spec h₀
  obtain ⟨-, hlt₁, hback₁, -⟩ := sextet_spec h₁
  obtain ⟨-, hlt₂, hback₂, -⟩ := sextet_spec h₂
  obtain ⟨-, hlt₃, hback₃, -⟩ := sextet_spec h₃
  have hquantum : quantum (octets [c₀, c₁, c₂, c₃])
      = ([sextet c₀, sextet c₁, sextet c₂, sextet c₃].take 4).map base64CharAt := by
    rw [octets_four h₀ h₁ h₂ h₃, ← sextets_octets hlt₀ hlt₁ hlt₂ hlt₃]
    rfl
  rw [hquantum]
  show [base64CharAt _, base64CharAt _, base64CharAt _, base64CharAt _] = _
  rw [hback₀, hback₁, hback₂, hback₃]

/-! ### What is written -/

/-- The encoding of a byte string. -/
def encoded : Bytes → Bytes
  | a :: b :: c :: x => quantum [a, b, c] ++ encoded x
  | [a, b] => quantum [a, b] ++ ['='.toUInt8]
  | [a] => quantum [a] ++ ['='.toUInt8, '='.toUInt8]
  | [] => []

/-- The byte string that is encoded. -/
def bytesOf : Bytes → Bytes
  | c₀ :: c₁ :: c₂ :: c₃ :: src =>
    if c₂ = '='.toUInt8 then octets [c₀, c₁]
    else if c₃ = '='.toUInt8 then octets [c₀, c₁, c₂]
    else octets [c₀, c₁, c₂, c₃] ++ bytesOf src
  | _ => []

/-- Groups of four; the last one may be padded, if the bits that are left over are zero. -/
inductive WellFormed : Bytes → Prop
  | nil : WellFormed []
  | one {c₀ c₁ : UInt8} (h₀ : isBase64 c₀ = true) (h₁ : isBase64 c₁ = true) (hzero : sextet c₁ % 16 = 0) :
      WellFormed [c₀, c₁, '='.toUInt8, '='.toUInt8]
  | two {c₀ c₁ c₂ : UInt8} (h₀ : isBase64 c₀ = true) (h₁ : isBase64 c₁ = true) (h₂ : isBase64 c₂ = true)
      (hzero : sextet c₂ % 4 = 0) : WellFormed [c₀, c₁, c₂, '='.toUInt8]
  | three {c₀ c₁ c₂ c₃ : UInt8} {src : Bytes} (h₀ : isBase64 c₀ = true) (h₁ : isBase64 c₁ = true)
      (h₂ : isBase64 c₂ = true) (h₃ : isBase64 c₃ = true) (h : WellFormed src) :
      WellFormed (c₀ :: c₁ :: c₂ :: c₃ :: src)

theorem wellFormed_encoded (x : Bytes) : WellFormed (encoded x) := by
  induction x using encoded.induct with
  | case1 a b c x ih =>
    have hquantum := isBase64_quantum [a, b, c]
    rw [quantum_three] at hquantum
    simp only [List.forall_mem_cons] at hquantum
    obtain ⟨h₀, h₁, h₂, h₃, -⟩ := hquantum
    rw [encoded, quantum_three]
    exact .three h₀ h₁ h₂ h₃ ih
  | case2 a b =>
    have hquantum := isBase64_quantum [a, b]
    rw [quantum_two] at hquantum
    simp only [List.forall_mem_cons] at hquantum
    obtain ⟨h₀, h₁, h₂, -⟩ := hquantum
    rw [encoded, quantum_two]
    refine .two h₀ h₁ h₂ ?_
    rw [(base64CharAt_spec _ (by omega)).2.2]
    exact Nat.mul_mod_left _ _
  | case3 a =>
    have ha := a.toNat_lt
    have hquantum := isBase64_quantum [a]
    rw [quantum_one] at hquantum
    simp only [List.forall_mem_cons] at hquantum
    obtain ⟨h₀, h₁, -⟩ := hquantum
    rw [encoded, quantum_one]
    refine .one h₀ h₁ ?_
    rw [(base64CharAt_spec _ (by omega)).2.2]
    exact Nat.mul_mod_left _ _
  | case4 => exact .nil

theorem encoded_bytesOf {src : Bytes} (h : WellFormed src) : encoded (bytesOf src) = src := by
  induction h with
  | nil => rfl
  | one h₀ h₁ hzero =>
    have hquantum := quantum_octets_two h₀ h₁ hzero
    rw [bytesOf, if_pos rfl]
    rw [octets_two h₀ h₁] at hquantum ⊢
    rw [encoded, hquantum]
    rfl
  | two h₀ h₁ h₂ hzero =>
    have hquantum := quantum_octets_three h₀ h₁ h₂ hzero
    rw [bytesOf, if_neg (sextet_spec h₂).1, if_pos rfl]
    rw [octets_three h₀ h₁ h₂] at hquantum ⊢
    rw [encoded, hquantum]
    rfl
  | three h₀ h₁ h₂ h₃ _ ih =>
    have hquantum := quantum_octets_four h₀ h₁ h₂ h₃
    rw [bytesOf, if_neg (sextet_spec h₂).1, if_neg (sextet_spec h₃).1]
    rw [octets_four h₀ h₁ h₂ h₃] at hquantum ⊢
    rw [List.cons_append, List.cons_append, List.cons_append, List.nil_append, encoded, hquantum, ih]
    rfl

theorem bytesOf_encoded (x : Bytes) : bytesOf (encoded x) = x := by
  induction x using encoded.induct with
  | case1 a b c x ih =>
    have hoctets := octets_quantum (g := [a, b, c]) (by simp) (by simp)
    rw [quantum_three] at hoctets
    rw [encoded, quantum_three, List.cons_append, List.cons_append, List.cons_append, List.cons_append,
      List.nil_append, bytesOf, if_neg (base64CharAt_spec _ ?_).2.1, if_neg (base64CharAt_spec _ ?_).2.1,
      hoctets, ih]
    · rfl
    · omega
    · have hc := c.toNat_lt
      omega
  | case2 a b =>
    have hoctets := octets_quantum (g := [a, b]) (by simp) (by simp)
    rw [quantum_two] at hoctets
    rw [encoded, quantum_two, List.cons_append, List.cons_append, List.cons_append, List.nil_append,
      bytesOf, if_neg (base64CharAt_spec _ ?_).2.1, if_pos rfl, hoctets]
    omega
  | case3 a =>
    have hoctets := octets_quantum (g := [a]) (by simp) (by simp)
    rw [quantum_one] at hoctets
    rw [encoded, quantum_one, List.cons_append, List.cons_append, List.nil_append, bytesOf, if_pos rfl,
      hoctets]
  | case4 => rfl

/-- **What is well formed is an encoding**, and the other way round. -/
theorem wellFormed_iff (src : Bytes) : WellFormed src ↔ ∃ x, encoded x = src := by
  constructor
  · intro h
    exact ⟨bytesOf src, encoded_bytesOf h⟩
  · rintro ⟨x, rfl⟩
    exact wellFormed_encoded x

theorem encoded_injective : Function.Injective encoded := Function.LeftInverse.injective bytesOf_encoded

theorem length_encoded (x : Bytes) : (encoded x).length = 4 * ((x.length + 2) / 3) := by
  induction x using encoded.induct with
  | case1 a b c x ih =>
    rw [encoded, quantum_three, List.length_append, ih]
    simp only [List.length_cons, List.length_nil]
    omega
  | case2 a b => simp [encoded, quantum_two]
  | case3 a => simp [encoded, quantum_one]
  | case4 => rfl

/-- Characters of the alphabet, then at most two `=`. -/
theorem encoded_eq_append (x : Bytes) :
    ∃ cs k, encoded x = cs ++ List.replicate k '='.toUInt8 ∧ k ≤ 2 ∧ ∀ c ∈ cs, isBase64 c = true := by
  induction x using encoded.induct with
  | case1 a b c x ih =>
    obtain ⟨cs, k, hsplit, hk, hcs⟩ := ih
    refine ⟨quantum [a, b, c] ++ cs, k, ?_, hk, ?_⟩
    · rw [encoded, hsplit, List.append_assoc]
    · exact List.forall_mem_append.mpr ⟨isBase64_quantum _, hcs⟩
  | case2 a b => exact ⟨quantum [a, b], 1, rfl, by decide, isBase64_quantum _⟩
  | case3 a => exact ⟨quantum [a], 2, rfl, by decide, isBase64_quantum _⟩
  | case4 => exact ⟨[], 0, rfl, by decide, by simp⟩

/-- The loop of `base64_encode`, and what follows it. -/
theorem encodeLoop_eq (x ret : Bytes) :
    (encodeLoop x [] ret).2 ++ encodeTail (encodeLoop x [] ret).1 = ret ++ encoded x := by
  induction x using encoded.induct generalizing ret with
  | case1 a b c x ih =>
    show (encodeLoop x [] (ret ++ (charArray4 [a, b, c]).map base64Char)).2
      ++ encodeTail (encodeLoop x [] (ret ++ (charArray4 [a, b, c]).map base64Char)).1 = _
    rw [ih, encoded, ← map_base64Char, List.append_assoc]
    rfl
  | case2 a b =>
    rw [encoded, ← map_base64Char]
    rfl
  | case3 a =>
    rw [encoded, ← map_base64Char]
    rfl
  | case4 => rfl

/-- **What `Base64Encode` writes.** -/
theorem base64Encode_eq (src : Bytes) :
    base64Encode src = encoded (src.take (src.length % 2 ^ 32)) := by
  have hloop := encodeLoop_eq (src.take (src.length % 2 ^ 32)) []
  rwa [List.nil_append] at hloop

theorem base64Encode_of_lt {src : Bytes} (h : src.length < 2 ^ 32) : base64Encode src = encoded src := by
  rw [base64Encode_eq, Nat.mod_eq_of_lt h, List.take_length]

/-! ### What is read -/

/-- A character of the alphabet goes into the array. -/
theorem decodeLoop_cons {c : UInt8} (hc : isBase64 c = true) (rest : Bytes) {inLen in_ : ℤ}
    (hlen : inLen ≠ 0) (hmin : inLen ≠ -2 ^ 31) (hmax : in_ ≠ 2 ^ 31 - 1) (array ret : Bytes) :
    decodeLoop (c :: rest) inLen in_ array ret = if (array ++ [c]).length = 4
      then decodeLoop rest (inLen - 1) (in_ + 1) [] (ret ++ charArray3 (array ++ [c]))
      else decodeLoop rest (inLen - 1) (in_ + 1) (array ++ [c]) ret := by
  rw [decodeLoop, if_neg hlen, if_neg hmin]
  dsimp only
  rw [if_pos ⟨(sextet_spec hc).1, hc⟩, if_neg hmax]

/-- As long as it does not fill it. -/
theorem decodeLoop_append {cs : Bytes} (hcs : ∀ c ∈ cs, isBase64 c = true) (rest : Bytes) {inLen in_ : ℤ}
    {array : Bytes} (harray : array.length + cs.length < 4) (hlen : cs.length ≤ inLen)
    (hin : in_ + inLen < 2 ^ 31) (ret : Bytes) :
    decodeLoop (cs ++ rest) inLen in_ array ret
      = decodeLoop rest (inLen - cs.length) (in_ + cs.length) (array ++ cs) ret := by
  induction cs generalizing inLen in_ array with
  | nil => simp
  | cons c cs ih =>
    rw [List.forall_mem_cons] at hcs
    rw [List.length_cons] at harray hlen ⊢
    rw [List.cons_append, decodeLoop_cons hcs.1 _ (by omega) (by omega) (by omega),
      if_neg (by rw [List.length_append, List.length_singleton]; omega),
      ih hcs.2 (by rw [List.length_append, List.length_singleton]; omega) (by omega) (by omega),
      List.append_assoc, List.singleton_append]
    congr 1
    · omega
    · omega

/-- The fourth one does. -/
theorem decodeLoop_four {c₀ c₁ c₂ c₃ : UInt8} (h₀ : isBase64 c₀ = true) (h₁ : isBase64 c₁ = true)
    (h₂ : isBase64 c₂ = true) (h₃ : isBase64 c₃ = true) (rest : Bytes) {inLen in_ : ℤ} (hlen : 4 ≤ inLen)
    (hin : in_ + inLen < 2 ^ 31) (ret : Bytes) :
    decodeLoop (c₀ :: c₁ :: c₂ :: c₃ :: rest) inLen in_ [] ret
      = decodeLoop rest (inLen - 4) (in_ + 4) [] (ret ++ octets [c₀, c₁, c₂, c₃]) := by
  have hfront : ∀ c ∈ [c₀, c₁, c₂], isBase64 c = true := by
    simp only [List.forall_mem_cons]
    exact ⟨h₀, h₁, h₂, by simp⟩
  have hall : ∀ c ∈ [c₀, c₁, c₂, c₃], isBase64 c = true := by
    simp only [List.forall_mem_cons]
    exact ⟨h₀, h₁, h₂, h₃, by simp⟩
  have hoctets := charArray3_eq hall (by simp) (by simp)
  have hlen' : (([c₀, c₁, c₂] : Bytes).length : ℤ) ≤ inLen := by
    simp only [List.length_cons, List.length_nil]
    omega
  have happend := decodeLoop_append hfront (c₃ :: rest)
    (show ([] : Bytes).length + [c₀, c₁, c₂].length < 4 by simp) hlen' hin ret
  simp only [List.length_cons, List.length_nil, List.cons_append, List.nil_append] at happend
  rw [happend, decodeLoop_cons h₃ rest (by omega) (by omega) (by omega), ← hoctets]
  show decodeLoop _ (inLen - 3 - 1) (in_ + 3 + 1) [] _ = _
  congr 1
  · omega
  · omega

theorem decodeLoop_equals (rest : Bytes) {inLen : ℤ} (hlen : 0 ≤ inLen) (in_ : ℤ) (array ret : Bytes) :
    decodeLoop ('='.toUInt8 :: rest) inLen in_ array ret = some (array, ret) := by
  have hstop : ¬ ('='.toUInt8 ≠ '='.toUInt8 ∧ isBase64 '='.toUInt8 = true) := by simp
  rw [decodeLoop]
  by_cases hzero : inLen = 0
  · rw [if_pos hzero]
  · rw [if_neg hzero, if_neg (by omega)]
    exact if_neg hstop

/-- **An encoding is decoded.** -/
theorem decodeLoop_encoded (x : Bytes) {inLen in_ : ℤ} (hlen : inLen = (encoded x).length)
    (hin : in_ + inLen < 2 ^ 31) (ret : Bytes) :
    ∃ array ret', decodeLoop (encoded x) inLen in_ [] ret = some (array, ret') ∧
      ret' ++ decodeTail array = ret ++ x := by
  induction x using encoded.induct generalizing inLen in_ ret with
  | case1 a b c x ih =>
    have hquantum := isBase64_quantum [a, b, c]
    have hoctets := octets_quantum (g := [a, b, c]) (by simp) (by simp)
    rw [encoded, List.length_append, length_quantum (by simp)] at hlen
    rw [quantum_three] at hquantum hoctets
    simp only [List.forall_mem_cons] at hquantum
    obtain ⟨h₀, h₁, h₂, h₃, -⟩ := hquantum
    simp only [List.length_cons, List.length_nil] at hlen
    obtain ⟨array, ret', hloop, hret⟩ := ih (show inLen - 4 = (encoded x).length by omega)
      (show in_ + 4 + (inLen - 4) < 2 ^ 31 by omega) (ret ++ [a, b, c])
    refine ⟨array, ret', ?_, ?_⟩
    · rw [encoded, quantum_three, List.cons_append, List.cons_append, List.cons_append, List.cons_append,
        List.nil_append, decodeLoop_four h₀ h₁ h₂ h₃ _ (by omega) hin, hoctets, hloop]
    · rw [hret, List.append_assoc]
      rfl
  | case2 a b =>
    have hquantum : (quantum [a, b]).length = 3 := length_quantum (by simp)
    rw [encoded, List.length_append, hquantum] at hlen
    simp only [List.length_cons, List.length_nil] at hlen
    refine ⟨quantum [a, b], ret, ?_, ?_⟩
    · rw [encoded, decodeLoop_append (isBase64_quantum _) _ (by rw [hquantum]; decide)
        (by rw [hquantum]; omega) hin, decodeLoop_equals _ (by rw [hquantum]; omega), List.nil_append]
    · rw [decodeTail, if_pos (by rw [hquantum]; decide), charArray3_eq (isBase64_quantum _)
        (by rw [hquantum]; decide) (by rw [hquantum]; decide), octets_quantum (by simp) (by simp)]
  | case3 a =>
    have hquantum : (quantum [a]).length = 2 := length_quantum (by simp)
    rw [encoded, List.length_append, hquantum] at hlen
    simp only [List.length_cons, List.length_nil] at hlen
    refine ⟨quantum [a], ret, ?_, ?_⟩
    · rw [encoded, decodeLoop_append (isBase64_quantum _) _ (by rw [hquantum]; decide)
        (by rw [hquantum]; omega) hin, decodeLoop_equals _ (by rw [hquantum]; omega), List.nil_append]
    · rw [decodeTail, if_pos (by rw [hquantum]; decide), charArray3_eq (isBase64_quantum _)
        hquantum.ge (by rw [hquantum]; decide), octets_quantum (by simp) (by simp)]
  | case4 =>
    refine ⟨[], ret, ?_, rfl⟩
    rw [encoded, decodeLoop]
    exact if_pos hlen

/-- Shorter than `2 ^ 31`, `in_len` is the length. -/
theorem base64Decode_encoded {x : Bytes} (hx : (encoded x).length < 2 ^ 31) :
    base64Decode (encoded x) = some (true, x) := by
  have hinLen : ((encoded x).length : ℤ).bmod (2 ^ 32) = (encoded x).length :=
    Int.bmod_eq_of_le (by omega) (by omega)
  obtain ⟨array, ret', hloop, hret⟩ := decodeLoop_encoded x rfl (show (0 : ℤ) + _ < 2 ^ 31 by omega) []
  rw [List.nil_append] at hret
  rw [base64Decode, hinLen, hloop]
  show some (true, ret' ++ decodeTail array) = _
  rw [hret]

/-- A negative `in_len` goes down to the least `int` while there are characters. -/
theorem decodeLoop_overflow {cs : Bytes} (hcs : ∀ c ∈ cs, isBase64 c = true) (rest : Bytes) {inLen : ℤ}
    (hneg : inLen < 0) (hlen : inLen + 2 ^ 31 = cs.length) (in_ : ℤ) (array ret : Bytes) :
    decodeLoop (cs ++ rest) inLen in_ array ret = none := by
  induction cs generalizing inLen in_ array ret with
  | nil =>
    obtain rfl : inLen = -2 ^ 31 := by
      rw [List.length_nil] at hlen
      omega
    cases rest with
    | nil => rfl
    | cons c rest => rfl
  | cons c cs ih =>
    rw [List.forall_mem_cons] at hcs
    rw [List.length_cons] at hlen
    by_cases hmax : in_ = 2 ^ 31 - 1
    · rw [List.cons_append, decodeLoop, if_neg (by omega), if_neg (by omega)]
      dsimp only
      rw [if_pos ⟨(sextet_spec hcs.1).1, hcs.1⟩, if_pos hmax]
    · rw [List.cons_append, decodeLoop_cons hcs.1 _ (by omega) (by omega) hmax]
      split_ifs
      · exact ih hcs.2 (by omega) (by omega) _ _ _
      · exact ih hcs.2 (by omega) (by omega) _ _ _

theorem base64Decode_overflow {x : Bytes} (hlow : 2 ^ 31 ≤ (encoded x).length)
    (hhigh : (encoded x).length < 2 ^ 32) : base64Decode (encoded x) = none := by
  have hinLen : ((encoded x).length : ℤ).bmod (2 ^ 32) = (encoded x).length - 2 ^ 32 :=
    (Int.bmod_eq_iff (by decide)).mpr ⟨by omega, by omega, by omega⟩
  obtain ⟨cs, k, hsplit, hk, hcs⟩ := encoded_eq_append x
  have hlength := congrArg List.length hsplit
  rw [List.length_append, List.length_replicate] at hlength
  have htake : encoded x = cs.take ((encoded x).length - 2 ^ 31)
      ++ (cs.drop ((encoded x).length - 2 ^ 31) ++ List.replicate k '='.toUInt8) := by
    rw [← List.append_assoc, List.take_append_drop, hsplit]
  have hfront : ∀ c ∈ cs.take ((encoded x).length - 2 ^ 31), isBase64 c = true :=
    fun c hc => hcs c (List.mem_of_mem_take hc)
  have hlen : ((encoded x).length - 2 ^ 32 : ℤ) + 2 ^ 31 = (cs.take ((encoded x).length - 2 ^ 31)).length := by
    rw [List.length_take]
    omega
  have hloop := decodeLoop_overflow hfront
    (cs.drop ((encoded x).length - 2 ^ 31) ++ List.replicate k '='.toUInt8) (by omega) hlen 0 [] []
  rw [← htake] at hloop
  rw [base64Decode, hinLen, hloop]
  rfl

/-- With an `in_len` that is not negative, no more is read than `in_len` says. -/
theorem length_decodeLoop {rest : Bytes} {inLen in_ : ℤ} (hlen : 0 ≤ inLen) {array ret array' ret' : Bytes}
    (h : decodeLoop rest inLen in_ array ret = some (array', ret')) :
    (ret'.length + array'.length : ℤ) ≤ ret.length + array.length + inLen := by
  induction rest generalizing inLen in_ array ret with
  | nil =>
    rw [decodeLoop] at h
    split_ifs at h
    · cases h
      omega
    · cases h
      omega
  | cons c rest ih =>
    rw [decodeLoop] at h
    split_ifs at h with hzero hmin hc hmax
    · cases h
      omega
    · dsimp only at h
      split_ifs at h with hfour
      · have hrest := ih (by omega) h
        rw [List.length_append] at hrest hfour
        simp only [charArray3, List.length_cons, List.length_nil] at hrest hfour
        omega
      · have hrest := ih (by omega) h
        rw [List.length_append, List.length_singleton] at hrest
        omega
    · cases h
      omega

/-- What `Base64Decode` returns is always true. -/
theorem base64Decode_eq_some {src dest : Bytes} {b : Bool} (h : base64Decode src = some (b, dest)) :
    b = true ∧ ∃ array ret, decodeLoop src ((src.length : ℤ).bmod (2 ^ 32)) 0 [] [] = some (array, ret) ∧
      dest = ret ++ decodeTail array := by
  rw [base64Decode] at h
  cases hloop : decodeLoop src ((src.length : ℤ).bmod (2 ^ 32)) 0 [] [] with
  | none =>
    rw [hloop] at h
    cases h
  | some result =>
    obtain ⟨array, ret⟩ := result
    rw [hloop] at h
    obtain ⟨rfl, rfl⟩ := Prod.mk.inj (Option.some.inj h)
    exact ⟨rfl, array, ret, rfl, rfl⟩

theorem length_dest_le {src dest : Bytes} {b : Bool} (h : base64Decode src = some (b, dest))
    (hlen : 0 ≤ (src.length : ℤ).bmod (2 ^ 32)) : (dest.length : ℤ) ≤ (src.length : ℤ).bmod (2 ^ 32) := by
  obtain ⟨-, array, ret, hloop, rfl⟩ := base64Decode_eq_some h
  have hbound := length_decodeLoop hlen hloop
  have htail : (decodeTail array).length ≤ array.length := by
    rw [decodeTail]
    split_ifs
    · rw [List.length_take]
      omega
    · exact Nat.zero_le _
  rw [List.length_append]
  simp only [List.length_nil] at hbound
  omega

/-- A decoder cannot have read what is `2 ^ 31` characters long. -/
theorem length_lt_of_base64Encode {src dest : Bytes} {b : Bool} (h : base64Decode src = some (b, dest))
    (hback : base64Encode dest = src) : src.length < 2 ^ 31 := by
  rw [base64Encode_eq] at hback
  have hlength := length_encoded (dest.take (dest.length % 2 ^ 32))
  rw [hback, List.length_take] at hlength
  by_contra hlong
  rcases Nat.lt_or_ge src.length (2 ^ 32) with hlt | hge
  · have hover := base64Decode_overflow (x := dest.take (dest.length % 2 ^ 32)) (by rw [hback]; omega)
      (by rwa [hback])
    rw [hback, h] at hover
    cases hover
  · have hinLen : (src.length : ℤ).bmod (2 ^ 32) = src.length - 2 ^ 32 :=
      (Int.bmod_eq_iff (by decide)).mpr ⟨by omega, by omega, by omega⟩
    have hdest := length_dest_le h (by omega)
    omega

/-! ### The functions -/

/-- What is promised of a byte string: it is decoded again, and its encoding, which no other one has, is as
long as it should be and made of the right characters. -/
def RoundTrips (x : Bytes) : Prop :=
  base64Decode (base64Encode x) = some (true, x) ∧ (base64Encode x).length = 4 * ((x.length + 2) / 3) ∧
    (∃ cs k, base64Encode x = cs ++ List.replicate k '='.toUInt8 ∧ k ≤ 2 ∧ ∀ c ∈ cs, c ∈ base64Chars) ∧
    ∀ y : Bytes, y.length < 2 ^ 31 → base64Encode y = base64Encode x → y = x

theorem base64Decode_base64Encode_none {x : Bytes} (hlow : 3 * 2 ^ 29 - 2 ≤ x.length)
    (hhigh : x.length < 2 ^ 31) : base64Decode (base64Encode x) = none := by
  have hlength := length_encoded x
  rw [base64Encode_of_lt (by omega)]
  exact base64Decode_overflow (by omega) (by omega)

/-- **Encoding and decoding**: for strings whose encoding is shorter than `2 ^ 31`. -/
theorem roundTrips_iff {x : Bytes} (hx : x.length < 2 ^ 31) : RoundTrips x ↔ x.length < 3 * 2 ^ 29 - 2 := by
  constructor
  · intro h
    by_contra hlong
    have hnone := base64Decode_base64Encode_none (by omega) hx
    rw [h.1] at hnone
    cases hnone
  · intro hshort
    have hlength := length_encoded x
    obtain ⟨cs, k, hsplit, hk, hcs⟩ := encoded_eq_append x
    rw [RoundTrips, base64Encode_of_lt (by omega)]
    refine ⟨base64Decode_encoded (by omega), hlength, ⟨cs, k, hsplit, hk, ?_⟩, ?_⟩
    · exact fun c hc => (sextet_spec (hcs c hc)).2.2.2
    · intro y hy heq
      rw [base64Encode_of_lt (by omega)] at heq
      exact encoded_injective heq

/-- `"Man"`. -/
theorem roundTrips_man : RoundTrips [77, 97, 110] := (roundTrips_iff (by decide)).mpr (by decide)

/-- The encoding of `3 * 2 ^ 29` zeros is `2 ^ 31` characters long. -/
theorem not_roundTrips_zeros : (List.replicate (3 * 2 ^ 29) (0 : UInt8)).length < 2 ^ 31 ∧
    ¬ RoundTrips (List.replicate (3 * 2 ^ 29) 0) := by
  have hlength : (List.replicate (3 * 2 ^ 29) (0 : UInt8)).length = 3 * 2 ^ 29 := List.length_replicate
  refine ⟨by omega, ?_⟩
  intro h
  have hnone := base64Decode_base64Encode_none (x := List.replicate (3 * 2 ^ 29) 0) (by omega) (by omega)
  rw [h.1] at hnone
  cases hnone

/-- What is promised of a text: the result says whether it is an encoding, and then `*dest` is what has been
encoded. -/
def AcceptsEncodings (src : Bytes) : Prop :=
  ∃ b dest, base64Decode src = some (b, dest) ∧ (b = true ↔ ∃ x, base64Encode x = src) ∧
    (b = true → base64Encode dest = src)

/-- **Rejecting**: nothing is rejected, so only the encodings are judged rightly. -/
theorem acceptsEncodings_iff (src : Bytes) :
    AcceptsEncodings src ↔ WellFormed src ∧ src.length < 2 ^ 31 := by
  constructor
  · rintro ⟨b, dest, hdecode, -, hback⟩
    have hsrc := hback (base64Decode_eq_some hdecode).1
    refine ⟨(wellFormed_iff src).mpr ?_, length_lt_of_base64Encode hdecode hsrc⟩
    exact ⟨_, (base64Encode_eq dest).symm.trans hsrc⟩
  · rintro ⟨hsrc, hlt⟩
    obtain ⟨x, rfl⟩ := (wellFormed_iff src).mp hsrc
    have hlength := length_encoded x
    have hencode : base64Encode x = encoded x := base64Encode_of_lt (by omega)
    exact ⟨true, x, base64Decode_encoded hlt, iff_of_true rfl ⟨x, hencode⟩, fun _ => hencode⟩

/-- `"!"` decodes to the empty string. -/
theorem not_acceptsEncodings_exclamation : ¬ AcceptsEncodings [33] := by
  rintro ⟨b, dest, hdecode, -, hback⟩
  have hempty : base64Decode [33] = some (true, []) := by decide
  rw [hempty] at hdecode
  obtain ⟨rfl, rfl⟩ := Prod.mk.inj (Option.some.inj hdecode)
  exact absurd (hback rfl) (by decide)

end LearnNetlib.Strings
