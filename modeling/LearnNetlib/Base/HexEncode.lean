import LearnNetlib.Base.CType
import LearnNetlib.Base.StringEncode
import LearnNetlib.Foundations.ObjectStorage

/-!
# Hexadecimal encoding, and what the decoder accepts (`base/string_encode.cc`)

* `hexEncodeChar`, `hexEncodeWithDelimiter` — the encoder, into a buffer; a write outside has no result;
* `spell` — groups of two characters, with the delimiter between them;
* `hexDecodeLoop_spell`, `hexDecodeLoop_outcome` — groups of letters and digits are decoded, everything else
  is rejected, and nothing is written outside the buffer;
* **`hexEncode_spec`** — what is written, what room it needs, and that it is decoded;
* **`decodesHex_iff`** — a letter behind `F` is accepted too, and then what has been read is lost.
-/

namespace LearnNetlib

open ObjectStorage CType

/-! ### The code -/

/-- `HexEncode(v)`. -/
def hexEncodeChar (v : UInt8) : UInt8 :=
  if v < 16 then ("0123456789ABCDEF".toList.map Char.toUInt8).getD v.toNat 0 else '!'.toUInt8

/-- The loop of `HexEncodeWithDelimiter`, on the rest of `src`. -/
def hexEncodeLoop (delimiter : UInt8) : Bytes → Bytes → ℕ → Access (Bytes × ℕ)
  | [], buf, bufPos => .ok (buf, bufPos)
  | ch :: src, buf, bufPos => do
    let buf ← writeByte buf bufPos (hexEncodeChar ((ch >>> 4) &&& 0xF))
    let buf ← writeByte buf (bufPos + 1) (hexEncodeChar (ch &&& 0xF))
    if delimiter ≠ 0 ∧ src ≠ [] then
      let buf ← writeByte buf (bufPos + 2) delimiter
      hexEncodeLoop delimiter src buf (bufPos + 3)
    else hexEncodeLoop delimiter src buf (bufPos + 2)

/-- `HexEncodeWithDelimiter(buf, buf_len, src, src_len, delimiter)`: the buffer, and what is returned. -/
def hexEncodeWithDelimiter (buf src : Bytes) (delimiter : UInt8) : Access (Bytes × ℕ) :=
  if buf.length = 0 then .ok (buf, 0)
  else
    let needed := if delimiter ≠ 0 then src.length * 3 else src.length * 2 + 1
    if buf.length < needed then .ok (buf, 0)
    else do
      let (buf, bufPos) ← hexEncodeLoop delimiter src buf 0
      let buf ← writeByte buf bufPos 0
      return (buf, bufPos)

/-! ### Groups of two -/

/-- Groups of two characters, with the delimiter, if there is one, between them. -/
def spell (delimiter : UInt8) (pairs : List (UInt8 × UInt8)) : Bytes :=
  (if delimiter = 0 then [] else [delimiter]).intercalate (pairs.map fun p => [p.1, p.2])

/-- The two digits of a byte. -/
def hexPair (ch : UInt8) : UInt8 × UInt8 := (hexEncodeChar ((ch >>> 4) &&& 0xF), hexEncodeChar (ch &&& 0xF))

/-- The text of a byte string. -/
def hexText (delimiter : UInt8) (src : Bytes) : Bytes := spell delimiter (src.map hexPair)

section Spell

variable {delimiter : UInt8}

theorem spell_singleton (p : UInt8 × UInt8) : spell delimiter [p] = [p.1, p.2] :=
  List.intercalate_singleton

theorem spell_cons_cons (p q : UInt8 × UInt8) (pairs : List (UInt8 × UInt8)) :
    spell delimiter (p :: q :: pairs)
      = p.1 :: p.2 :: ((if delimiter = 0 then [] else [delimiter]) ++ spell delimiter (q :: pairs)) := by
  rw [spell, List.map_cons, List.map_cons, List.intercalate_cons_cons]
  rfl

theorem spell_cons_eq (delimiter : UInt8) (p : UInt8 × UInt8) (pairs : List (UInt8 × UInt8)) :
    ∃ rest, spell delimiter (p :: pairs) = p.1 :: p.2 :: rest := by
  cases pairs with
  | nil => exact ⟨[], spell_singleton p⟩
  | cons q pairs => exact ⟨_, spell_cons_cons p q pairs⟩

theorem length_spell (pairs : List (UInt8 × UInt8)) :
    (spell delimiter pairs).length = if delimiter = 0 then 2 * pairs.length else 3 * pairs.length - 1 := by
  induction pairs with
  | nil => simp [spell]
  | cons p pairs ih =>
    cases pairs with
    | nil =>
      rw [spell_singleton]
      split_ifs <;> rfl
    | cons q pairs =>
      rw [spell_cons_cons, List.length_cons, List.length_cons, List.length_append, ih]
      split_ifs
      · simp only [List.length_cons, List.length_nil]
        omega
      · simp only [List.length_cons, List.length_nil]
        omega

/-- A text is split in one way. -/
theorem spell_injective {pairs qs : List (UInt8 × UInt8)} (h : spell delimiter pairs = spell delimiter qs) :
    pairs = qs := by
  have hlength := congrArg List.length h
  rw [length_spell, length_spell] at hlength
  induction pairs generalizing qs with
  | nil =>
    refine (List.length_eq_zero_iff.mp ?_).symm
    rw [List.length_nil] at hlength
    split_ifs at hlength <;> omega
  | cons p pairs ih =>
    cases qs with
    | nil =>
      rw [List.length_cons, List.length_nil] at hlength
      split_ifs at hlength
      omega
    | cons q qs =>
      have hsame : pairs.length = qs.length := by
        rw [List.length_cons, List.length_cons] at hlength
        split_ifs at hlength <;> omega
      cases pairs with
      | nil =>
        obtain rfl := List.length_eq_zero_iff.mp hsame.symm
        rw [spell_singleton, spell_singleton, List.cons.injEq, List.cons.injEq] at h
        rw [Prod.ext h.1 h.2.1]
      | cons p' pairs =>
        cases qs with
        | nil => cases hsame
        | cons q' qs =>
          rw [spell_cons_cons, spell_cons_cons, List.cons.injEq, List.cons.injEq] at h
          obtain ⟨hfirst, hsecond, hrest⟩ := h
          rw [Prod.ext hfirst hsecond, ih (List.append_cancel_left hrest) (by rw [hsame])]

end Spell

/-! ### Encoding -/

/-- A byte, and the delimiter if there is one and more bytes follow. -/
theorem hexText_cons (delimiter ch : UInt8) (src : Bytes) :
    hexText delimiter (ch :: src) = (hexPair ch).1 :: (hexPair ch).2 ::
      ((if delimiter ≠ 0 ∧ src ≠ [] then [delimiter] else []) ++ hexText delimiter src) := by
  cases src with
  | nil =>
    rw [if_neg (by simp)]
    exact spell_singleton _
  | cons ch' src =>
    rw [hexText, List.map_cons, List.map_cons, spell_cons_cons, hexText, List.map_cons]
    by_cases hdelimiter : delimiter = 0
    · rw [if_pos hdelimiter, if_neg (fun h => h.1 hdelimiter)]
    · rw [if_neg hdelimiter, if_pos ⟨hdelimiter, List.cons_ne_nil _ _⟩]

theorem length_hexText (delimiter : UInt8) (src : Bytes) : (hexText delimiter src).length
    = if delimiter = 0 then 2 * src.length else 3 * src.length - 1 := by
  rw [hexText, length_spell, List.length_map]

/-- **The loop writes the text.** -/
theorem hexEncodeLoop_eq (delimiter : UInt8) {src buf : Bytes} {p : ℕ}
    (hroom : p + (hexText delimiter src).length ≤ buf.length) :
    hexEncodeLoop delimiter src buf p
      = .ok (overwrite buf p (hexText delimiter src), p + (hexText delimiter src).length) := by
  induction src generalizing buf p with
  | nil =>
    have htext : hexText delimiter [] = [] := rfl
    rw [hexEncodeLoop, htext, overwrite_nil]
    rfl
  | cons ch src ih =>
    rw [hexText_cons] at hroom ⊢
    simp only [List.length_cons, List.length_append] at hroom
    have htwo : hexEncodeLoop delimiter (ch :: src) buf p
        = if delimiter ≠ 0 ∧ src ≠ []
          then writeByte ((buf.set p (hexPair ch).1).set (p + 1) (hexPair ch).2) (p + 2) delimiter >>=
            fun buf => hexEncodeLoop delimiter src buf (p + 3)
          else hexEncodeLoop delimiter src ((buf.set p (hexPair ch).1).set (p + 1) (hexPair ch).2) (p + 2) := by
      rw [hexEncodeLoop, writeByte_of_lt (by omega), Access.ok_bind,
        writeByte_of_lt (by rw [List.length_set]; omega), Access.ok_bind]
      rfl
    rw [htwo]
    split_ifs at hroom ⊢ with hdelimiter
    · rw [List.length_singleton] at hroom
      rw [writeByte_of_lt (by rw [List.length_set, List.length_set]; omega), Access.ok_bind,
        ih (by rw [List.length_set, List.length_set, List.length_set]; omega),
        overwrite_set_cons (by rw [List.length_set, List.length_set]; omega),
        overwrite_set_cons (by rw [List.length_set]; omega), overwrite_set_cons (by omega)]
      simp only [List.singleton_append, List.length_cons]
      congr 2
      omega
    · rw [List.length_nil] at hroom
      rw [ih (by rw [List.length_set, List.length_set]; omega),
        overwrite_set_cons (by rw [List.length_set]; omega), overwrite_set_cons (by omega)]
      simp only [List.nil_append, List.length_cons]
      congr 2
      omega

/-- The room that is asked for is the room that is used. -/
theorem lt_needed_iff (delimiter : UInt8) (src : Bytes) {n : ℕ} (hn : n ≠ 0) :
    (n < if delimiter ≠ 0 then src.length * 3 else src.length * 2 + 1)
      ↔ n < (hexText delimiter src).length + 1 := by
  rw [length_hexText]
  by_cases hdelimiter : delimiter = 0
  · rw [if_neg (not_not.mpr hdelimiter), if_pos hdelimiter]
    omega
  · rw [if_pos hdelimiter, if_neg hdelimiter]
    omega

/-- With room for the text and the terminator. -/
theorem hexEncodeWithDelimiter_eq (delimiter : UInt8) {src buf : Bytes}
    (hroom : (hexText delimiter src).length + 1 ≤ buf.length) :
    hexEncodeWithDelimiter buf src delimiter
      = .ok (overwrite buf 0 (hexText delimiter src ++ [0]), (hexText delimiter src).length) := by
  have hwritten : (overwrite buf 0 (hexText delimiter src)).length = buf.length := by
    rw [length_overwrite (Nat.zero_le _)]
    omega
  have hnul : (overwrite buf 0 (hexText delimiter src)).set (0 + (hexText delimiter src).length) 0
      = overwrite buf 0 (hexText delimiter src ++ [0]) := set_overwrite (by omega) 0
  rw [hexEncodeWithDelimiter, if_neg (by omega)]
  dsimp only
  rw [if_neg (mt (lt_needed_iff delimiter src (by omega)).mp (by omega)), hexEncodeLoop_eq delimiter (by omega),
    Access.ok_bind, Nat.zero_add]
  rw [Nat.zero_add] at hnul
  dsimp only
  rw [writeByte_of_lt (by omega), Access.ok_bind, hnul]
  rfl

/-- Without it nothing is written. -/
theorem hexEncodeWithDelimiter_small (delimiter : UInt8) {src buf : Bytes}
    (hroom : buf.length < (hexText delimiter src).length + 1) :
    hexEncodeWithDelimiter buf src delimiter = .ok (buf, 0) := by
  rw [hexEncodeWithDelimiter]
  by_cases hempty : buf.length = 0
  · rw [if_pos hempty]
  · rw [if_neg hempty]
    exact if_pos ((lt_needed_iff delimiter src hempty).mpr hroom)

/-! ### Decoding -/

/-- What a group is read as. -/
def hexByte (p : UInt8 × UInt8) : UInt8 :=
  ((hexDecodeChar p.1).getD 0 <<< 4) ||| (hexDecodeChar p.2).getD 0

/-- Letters and digits, whether they are hex digits or not. -/
def Alphanumeric (pairs : List (UInt8 × UInt8)) : Prop :=
  ∀ p ∈ pairs, isalnum p.1 = true ∧ isalnum p.2 = true

/-- Hex digits. -/
def Hexadecimal (pairs : List (UInt8 × UInt8)) : Prop :=
  ∀ p ∈ pairs, isxdigit p.1 = true ∧ isxdigit p.2 = true

theorem hexDecodeChar_isSome (c : UInt8) : (hexDecodeChar c).isSome = isalnum c := by
  revert c
  exact forall_byte (by decide +kernel)

/-- A hex digit is written again, as a capital. -/
theorem hexDecodeChar_isxdigit {c : UInt8} : isxdigit c = true → isalnum c = true ∧
    (hexDecodeChar c).getD 0 < 16 ∧ hexEncodeChar ((hexDecodeChar c).getD 0) = toupper c := by
  revert c
  apply forall_byte
  decide +kernel

theorem nibbles_nat : ∀ n < 16, ∀ m < 16,
    ((((UInt8.ofNat n <<< 4) ||| UInt8.ofNat m) >>> 4) &&& 0xF) = UInt8.ofNat n ∧
      ((((UInt8.ofNat n <<< 4) ||| UInt8.ofNat m)) &&& 0xF) = UInt8.ofNat m := by
  decide +kernel

theorem nibbles {h₁ h₂ : UInt8} (h₁lt : h₁ < 16) (h₂lt : h₂ < 16) :
    ((((h₁ <<< 4) ||| h₂) >>> 4) &&& 0xF) = h₁ ∧ (((h₁ <<< 4) ||| h₂) &&& 0xF) = h₂ := by
  have hnat := nibbles_nat h₁.toNat h₁lt h₂.toNat h₂lt
  rwa [UInt8.ofNat_toNat, UInt8.ofNat_toNat] at hnat

/-- The digits of a byte are hex digits, and read as the byte. -/
theorem hexPair_spec (ch : UInt8) : isxdigit (hexPair ch).1 = true ∧ isxdigit (hexPair ch).2 = true ∧
    hexByte (hexPair ch) = ch := by
  revert ch
  exact forall_byte (by decide +kernel)

theorem hexPair_hexByte {p : UInt8 × UInt8} (h₁ : isxdigit p.1 = true) (h₂ : isxdigit p.2 = true) :
    hexPair (hexByte p) = (toupper p.1, toupper p.2) := by
  obtain ⟨-, hlt₁, hback₁⟩ := hexDecodeChar_isxdigit h₁
  obtain ⟨-, hlt₂, hback₂⟩ := hexDecodeChar_isxdigit h₂
  have hnibbles := nibbles hlt₁ hlt₂
  rw [hexPair, hexByte, hnibbles.1, hnibbles.2, hback₁, hback₂]

section Decoding

variable {bufLen : ℕ} {delimiter : UInt8}

/-- A turn that reads letters or digits and has room. -/
theorem hexDecodeLoop_group (delimiter : UInt8) {p : UInt8 × UInt8}
    (hp : isalnum p.1 = true ∧ isalnum p.2 = true) {buf : Bytes} (hroom : buf.length < bufLen) :
    hexDecodeLoop bufLen delimiter [p.1, p.2] buf = .ok (buf ++ [hexByte p]) ∧
      (∀ x, hexDecodeLoop bufLen delimiter [p.1, p.2, x] buf = .ok []) ∧
      ∀ x y rest, hexDecodeLoop bufLen delimiter (p.1 :: p.2 :: x :: y :: rest) buf
        = if delimiter = 0 then hexDecodeLoop bufLen delimiter (x :: y :: rest) (buf ++ [hexByte p])
          else if x = delimiter then hexDecodeLoop bufLen delimiter (y :: rest) (buf ++ [hexByte p])
          else .ok [] := by
  rw [← hexDecodeChar_isSome, ← hexDecodeChar_isSome, Option.isSome_iff_exists, Option.isSome_iff_exists] at hp
  obtain ⟨⟨h₁, hread₁⟩, ⟨h₂, hread₂⟩⟩ := hp
  have hbyte : hexByte p = (h₁ <<< 4) ||| h₂ := by
    rw [hexByte, hread₁, hread₂]
    rfl
  refine ⟨?_, fun x => ?_, fun x y rest => ?_⟩
  · rw [hexDecodeLoop, hread₁, hread₂, hbyte]
    dsimp only
    rw [if_pos hroom, hexDecodeLoop]
  · rw [hexDecodeLoop, hread₁, hread₂]
    dsimp only
    rw [if_pos hroom, hexDecodeLoop]
  · rw [hexDecodeLoop, hread₁, hread₂, hbyte]
    dsimp only
    rw [if_pos hroom]

/-- A turn that reads something else. -/
theorem hexDecodeLoop_stuck {c₁ c₂ : UInt8} (h : ¬ (isalnum c₁ = true ∧ isalnum c₂ = true)) (rest buf : Bytes) :
    hexDecodeLoop bufLen delimiter (c₁ :: c₂ :: rest) buf = .ok [] := by
  rw [← hexDecodeChar_isSome, ← hexDecodeChar_isSome] at h
  rw [hexDecodeLoop]
  cases hread₁ : hexDecodeChar c₁ with
  | none => rfl
  | some h₁ =>
    cases hread₂ : hexDecodeChar c₂ with
    | none => rfl
    | some h₂ =>
      rw [hread₁, hread₂] at h
      exact absurd ⟨rfl, rfl⟩ h

/-- **Groups of letters and digits are decoded.** -/
theorem hexDecodeLoop_spell {pairs : List (UInt8 × UInt8)} (hpairs : Alphanumeric pairs) {buf : Bytes}
    (hroom : buf.length + pairs.length ≤ bufLen) :
    hexDecodeLoop bufLen delimiter (spell delimiter pairs) buf = .ok (buf ++ pairs.map hexByte) := by
  induction pairs generalizing buf with
  | nil => exact congrArg _ (List.append_nil buf).symm
  | cons p pairs ih =>
    rw [Alphanumeric, List.forall_mem_cons] at hpairs
    rw [List.length_cons] at hroom
    obtain ⟨hend, -, hgo⟩ := hexDecodeLoop_group delimiter hpairs.1 (show buf.length < bufLen by omega)
    cases pairs with
    | nil => rw [spell_singleton, hend, List.map_singleton]
    | cons q pairs =>
      have hroom' : (buf ++ [hexByte p]).length + (q :: pairs).length ≤ bufLen := by
        rw [List.length_append, List.length_singleton]
        omega
      have hrest := ih hpairs.2 hroom'
      obtain ⟨rest, hspell⟩ := spell_cons_eq delimiter q pairs
      rw [spell_cons_cons, List.map_cons, List.append_cons]
      rw [hspell] at hrest ⊢
      by_cases hdelimiter : delimiter = 0
      · rw [if_pos hdelimiter, List.nil_append, hgo, if_pos hdelimiter, hrest]
      · rw [if_neg hdelimiter, List.singleton_append, hgo, if_neg hdelimiter, if_pos rfl, hrest]

theorem exists_spell_cons {p : UInt8 × UInt8} (hp : isalnum p.1 = true ∧ isalnum p.2 = true) {rest : Bytes}
    (hne : rest ≠ []) (h : ∃ pairs, Alphanumeric pairs ∧ spell delimiter pairs = rest) :
    ∃ pairs, Alphanumeric pairs ∧
      spell delimiter pairs = p.1 :: p.2 :: ((if delimiter = 0 then [] else [delimiter]) ++ rest) := by
  obtain ⟨pairs, hpairs, rfl⟩ := h
  cases pairs with
  | nil => exact absurd rfl hne
  | cons q pairs => exact ⟨p :: q :: pairs, List.forall_mem_cons.mpr ⟨hp, hpairs⟩, spell_cons_cons p q pairs⟩

/-- **Nothing else is**, and nothing is written outside the buffer. -/
theorem hexDecodeLoop_outcome (src : Bytes) {buf : Bytes}
    (hroom : buf.length + (if delimiter ≠ 0 then (src.length + 1) / 3 else src.length / 2) ≤ bufLen) :
    hexDecodeLoop bufLen delimiter src buf = .ok [] ∨
      ∃ pairs, Alphanumeric pairs ∧ spell delimiter pairs = src := by
  induction hn : src.length using Nat.strong_induction_on generalizing src buf with
  | _ n ih =>
  rcases src with _ | ⟨c₁, _ | ⟨c₂, rest⟩⟩
  · exact .inr ⟨[], by simp [Alphanumeric], rfl⟩
  · exact .inl rfl
  · by_cases hp : isalnum c₁ = true ∧ isalnum c₂ = true
    · have hlt : buf.length < bufLen := by
        simp only [List.length_cons] at hroom
        split_ifs at hroom <;> omega
      have hbuf : (buf ++ [hexByte (c₁, c₂)]).length = buf.length + 1 := by
        rw [List.length_append, List.length_singleton]
      obtain ⟨-, hone, hgo⟩ := hexDecodeLoop_group delimiter (p := (c₁, c₂)) hp hlt
      rcases rest with _ | ⟨x, _ | ⟨y, rest⟩⟩
      · refine .inr ⟨[(c₁, c₂)], ?_, spell_singleton _⟩
        exact List.forall_mem_singleton.mpr hp
      · exact .inl (hone x)
      · simp only [List.length_cons] at hroom hn
        rw [hgo]
        by_cases hdelimiter : delimiter = 0
        · have hroom' : (buf ++ [hexByte (c₁, c₂)]).length + (if delimiter ≠ 0
              then ((x :: y :: rest).length + 1) / 3 else (x :: y :: rest).length / 2) ≤ bufLen := by
            rw [if_neg (not_not.mpr hdelimiter)] at hroom ⊢
            simp only [List.length_cons] at hroom ⊢
            omega
          have hrest := ih (rest.length + 2) (by omega) (x :: y :: rest) hroom' rfl
          rw [if_pos hdelimiter]
          refine hrest.imp_right fun h => ?_
          have hcons := exists_spell_cons (p := (c₁, c₂)) hp (List.cons_ne_nil _ _) h
          rwa [if_pos hdelimiter] at hcons
        · rw [if_neg hdelimiter]
          by_cases hx : x = delimiter
          · have hroom' : (buf ++ [hexByte (c₁, c₂)]).length + (if delimiter ≠ 0
                then ((y :: rest).length + 1) / 3 else (y :: rest).length / 2) ≤ bufLen := by
              rw [if_pos hdelimiter] at hroom ⊢
              simp only [List.length_cons] at hroom ⊢
              omega
            have hrest := ih (rest.length + 1) (by omega) (y :: rest) hroom' rfl
            rw [if_pos hx]
            refine hrest.imp_right fun h => ?_
            have hcons := exists_spell_cons (p := (c₁, c₂)) hp (List.cons_ne_nil _ _) h
            rw [hx]
            rwa [if_neg hdelimiter] at hcons
          · exact .inl (if_neg hx)
    · exact .inl (hexDecodeLoop_stuck hp rest buf)

end Decoding

/-- The room that is asked for is the number of groups. -/
theorem needed_spell (delimiter : UInt8) (pairs : List (UInt8 × UInt8)) :
    (if delimiter ≠ 0 then ((spell delimiter pairs).length + 1) / 3 else (spell delimiter pairs).length / 2)
      = pairs.length := by
  rw [length_spell]
  by_cases hdelimiter : delimiter = 0
  · rw [if_neg (not_not.mpr hdelimiter), if_pos hdelimiter]
    omega
  · rw [if_pos hdelimiter, if_neg hdelimiter]
    omega

/-- The decoder on groups of letters and digits. -/
theorem hexDecodeWithDelimiter_spell (delimiter : UInt8) {pairs : List (UInt8 × UInt8)}
    (hpairs : Alphanumeric pairs) (bufLen : ℕ) :
    hexDecodeWithDelimiter bufLen (spell delimiter pairs) delimiter
      = .ok (if pairs.length ≤ bufLen then pairs.map hexByte else []) := by
  rw [hexDecodeWithDelimiter]
  dsimp only
  rw [needed_spell]
  by_cases hzero : bufLen = 0
  · rw [if_pos hzero]
    split_ifs with hroom
    · rw [List.length_eq_zero_iff.mp (by omega : pairs.length = 0)]
      rfl
    · rfl
  · rw [if_neg hzero]
    by_cases hroom : pairs.length ≤ bufLen
    · rw [if_neg (by omega), if_pos hroom, hexDecodeLoop_spell hpairs (by simpa using hroom), List.nil_append]
    · rw [if_pos (by omega), if_neg hroom]

/-- The decoder on everything else. -/
theorem hexDecodeWithDelimiter_other (delimiter : UInt8) {src : Bytes}
    (hsrc : ¬ ∃ pairs, Alphanumeric pairs ∧ spell delimiter pairs = src) (bufLen : ℕ) :
    hexDecodeWithDelimiter bufLen src delimiter = .ok [] := by
  rw [hexDecodeWithDelimiter]
  by_cases hzero : bufLen = 0
  · rw [if_pos hzero]
  · rw [if_neg hzero]
    dsimp only
    by_cases hroom : bufLen < if delimiter ≠ 0 then (src.length + 1) / 3 else src.length / 2
    · rw [if_pos hroom]
    · rw [if_neg hroom]
      refine (hexDecodeLoop_outcome src ?_).resolve_right hsrc
      rw [List.length_nil, Nat.zero_add]
      exact Nat.not_lt.mp hroom

theorem alphanumeric_of_hexadecimal {pairs : List (UInt8 × UInt8)} (h : Hexadecimal pairs) :
    Alphanumeric pairs :=
  fun p hp => ⟨(hexDecodeChar_isxdigit (h p hp).1).1, (hexDecodeChar_isxdigit (h p hp).2).1⟩

/-- **Encoding**: the text and its terminator, if there is room for both; it is decoded, if there is room for
the bytes. -/
theorem hexEncode_spec (delimiter : UInt8) (src : Bytes) :
    (hexText delimiter src).length = (if delimiter = 0 then 2 * src.length else 3 * src.length - 1) ∧
    (∀ buf : Bytes, hexEncodeWithDelimiter buf src delimiter
      = .ok (if (hexText delimiter src).length + 1 ≤ buf.length
          then (overwrite buf 0 (hexText delimiter src ++ [0]), (hexText delimiter src).length)
          else (buf, 0))) ∧
    ∀ bufLen, hexDecodeWithDelimiter bufLen (hexText delimiter src) delimiter
      = .ok (if src.length ≤ bufLen then src else []) := by
  refine ⟨length_hexText delimiter src, ?_, ?_⟩
  · intro buf
    split_ifs with hroom
    · exact hexEncodeWithDelimiter_eq delimiter hroom
    · exact hexEncodeWithDelimiter_small delimiter (Nat.not_le.mp hroom)
  · intro bufLen
    have hpairs : Hexadecimal (src.map hexPair) :=
      List.forall_mem_map.mpr fun ch _ => ⟨(hexPair_spec ch).1, (hexPair_spec ch).2.1⟩
    have hback : (src.map hexPair).map hexByte = src :=
      Function.LeftInverse.list_map (fun ch => (hexPair_spec ch).2.2) src
    rw [hexText, hexDecodeWithDelimiter_spell delimiter (alphanumeric_of_hexadecimal hpairs), hback,
      List.length_map]

/-- What is promised of a text: a count other than zero means groups of hex digits, and then the bytes are
encoded as the text, up to case. -/
def DecodesHex (delimiter : UInt8) (src : Bytes) : Prop :=
  ∀ bufLen, ∃ bytes, hexDecodeWithDelimiter bufLen src delimiter = .ok bytes ∧ (bytes ≠ [] →
    (∃ pairs, Hexadecimal pairs ∧ spell delimiter pairs = src) ∧
    ∀ buf : Bytes, src.length + 1 ≤ buf.length → ∃ again, again.map toupper = src.map toupper ∧
      hexEncodeWithDelimiter buf bytes delimiter = .ok (overwrite buf 0 (again ++ [0]), again.length))

theorem toupper_toupper (c : UInt8) : toupper (toupper c) = toupper c := by
  revert c
  exact forall_byte (by decide +kernel)

/-- Groups of hex digits are written again, up to case. -/
theorem map_toupper_hexText (delimiter : UInt8) {pairs : List (UInt8 × UInt8)} (hpairs : Hexadecimal pairs) :
    (hexText delimiter (pairs.map hexByte)).map toupper = (spell delimiter pairs).map toupper := by
  have hback : (pairs.map hexByte).map hexPair = pairs.map fun p => (toupper p.1, toupper p.2) := by
    rw [List.map_map]
    exact List.map_congr_left fun p hp => hexPair_hexByte (hpairs p hp).1 (hpairs p hp).2
  rw [hexText, hback]
  clear hback hpairs
  induction pairs with
  | nil => rfl
  | cons p pairs ih =>
    cases pairs with
    | nil =>
      rw [List.map_singleton, spell_singleton, spell_singleton]
      simp only [List.map_cons, List.map_nil, toupper_toupper]
    | cons q pairs =>
      rw [List.map_cons, List.map_cons, spell_cons_cons, spell_cons_cons]
      rw [List.map_cons] at ih
      simp only [List.map_cons, List.map_append, toupper_toupper, ih]

theorem length_hexText_spell (delimiter : UInt8) (pairs : List (UInt8 × UInt8)) :
    (hexText delimiter (pairs.map hexByte)).length = (spell delimiter pairs).length := by
  rw [length_hexText, length_spell, List.length_map]

/-- **Rejecting**: all groups of letters and digits are accepted, hex digits or not. -/
theorem decodesHex_iff (delimiter : UInt8) (src : Bytes) : DecodesHex delimiter src ↔
    ¬ ∃ pairs, Alphanumeric pairs ∧ ¬ Hexadecimal pairs ∧ spell delimiter pairs = src := by
  constructor
  · rintro h ⟨pairs, hpairs, hnot, rfl⟩
    obtain ⟨bytes, hdecode, hbytes⟩ := h pairs.length
    rw [hexDecodeWithDelimiter_spell delimiter hpairs, if_pos le_rfl] at hdecode
    obtain rfl := Except.ok.inj hdecode
    have hne : pairs.map hexByte ≠ [] := by
      rintro hnil
      rw [List.map_eq_nil_iff.mp hnil] at hnot
      exact hnot (by simp [Hexadecimal])
    obtain ⟨⟨qs, hqs, hsame⟩, -⟩ := hbytes hne
    rw [spell_injective hsame] at hqs
    exact hnot hqs
  · intro hbad bufLen
    by_cases hsrc : ∃ pairs, Alphanumeric pairs ∧ spell delimiter pairs = src
    · obtain ⟨pairs, hpairs, rfl⟩ := hsrc
      have hhex : Hexadecimal pairs := by
        by_contra hnot
        exact hbad ⟨pairs, hpairs, hnot, rfl⟩
      refine ⟨_, hexDecodeWithDelimiter_spell delimiter hpairs bufLen, ?_⟩
      split_ifs with hroom
      · intro _
        refine ⟨⟨pairs, hhex, rfl⟩, ?_⟩
        intro buf hbuf
        refine ⟨hexText delimiter (pairs.map hexByte), map_toupper_hexText delimiter hhex, ?_⟩
        exact hexEncodeWithDelimiter_eq delimiter (by rwa [length_hexText_spell])
      · intro hne
        exact absurd rfl hne
    · exact ⟨[], hexDecodeWithDelimiter_other delimiter hsrc bufLen, fun hne => absurd rfl hne⟩

/-- `"G0"` is decoded to a NUL character. -/
theorem hexDecode_accepts_g : hexDecodeWithDelimiter 1 [71, 48] 0 = .ok [0] ∧ ¬ DecodesHex 0 [71, 48] := by
  refine ⟨by decide, ?_⟩
  intro h
  obtain ⟨bytes, hdecode, hbytes⟩ := h 1
  have hzero : hexDecodeWithDelimiter 1 [71, 48] 0 = .ok [0] := by decide
  rw [hzero] at hdecode
  obtain rfl := Except.ok.inj hdecode
  obtain ⟨⟨pairs, hpairs, hsame⟩, -⟩ := hbytes (by decide)
  have hgroup : spell 0 [(71, 48)] = [71, 48] := spell_singleton (71, 48)
  obtain rfl : pairs = [(71, 48)] := spell_injective (hsame.trans hgroup.symm)
  exact absurd (hpairs (71, 48) List.mem_cons_self).1 (by decide)

end LearnNetlib
