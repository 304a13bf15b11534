import LearnNetlib.Base.Bytes

/-!
# Hexadecimal decoding (`base/string_encode.cc`)

* `hexDecodeChar` — `HexDecode(char, unsigned char*)`, which takes every letter for a digit;
* `hexDecodeWithDelimiter`, `hexDecode` — the decoders into a buffer and into a string; a write
  outside the buffer has no result;
* **`hexDecode_flatMap`** — the digits of a non-empty byte string decode to it.
-/

namespace LearnNetlib

/-- `HexDecode(ch, &v)`. -/
def hexDecodeChar (ch : UInt8) : Option UInt8 :=
  if '0'.toUInt8 ≤ ch ∧ ch ≤ '9'.toUInt8 then some (ch - '0'.toUInt8)
  else if 'A'.toUInt8 ≤ ch ∧ ch ≤ 'Z'.toUInt8 then some (ch - 'A'.toUInt8 + 10)
  else if 'a'.toUInt8 ≤ ch ∧ ch ≤ 'z'.toUInt8 then some (ch - 'a'.toUInt8 + 10)
  else none

/-- The loop of `HexDecodeWithDelimiter`, on the rest of `src` and what stands in the buffer; the
bytes the caller may use, none when it returns 0. -/
def hexDecodeLoop (bufLen : ℕ) (delimiter : UInt8) : Bytes → Bytes → Access Bytes
  | [], buf => .ok buf
  | [_], _ => .ok []
  | c₁ :: c₂ :: rest, buf =>
    match hexDecodeChar c₁, hexDecodeChar c₂ with
    | some h₁, some h₂ =>
      if buf.length < bufLen then
        let buf := buf ++ [(h₁ <<< 4) ||| h₂]
        -- `delimiter && (src_len - src_pos) > 1`
        match rest with
        | d :: c :: rest =>
          if delimiter = 0 then hexDecodeLoop bufLen delimiter (d :: c :: rest) buf
          else if d = delimiter then hexDecodeLoop bufLen delimiter (c :: rest) buf
          else .ok []
        | rest => hexDecodeLoop bufLen delimiter rest buf
      else .error .outOfBounds
    | _, _ => .ok []

/-- `HexDecodeWithDelimiter(buf, buf_len, src, src_len, delimiter)`. -/
def hexDecodeWithDelimiter (bufLen : ℕ) (src : Bytes) (delimiter : UInt8) : Access Bytes :=
  if bufLen = 0 then .ok []
  else
    let needed := if delimiter ≠ 0 then (src.length + 1) / 3 else src.length / 2
    if bufLen < needed then .ok [] else hexDecodeLoop bufLen delimiter src []

/-- `HexDecode(const std::string&)`, with its `DCHECK(length > 0)`. -/
def hexDecode (src : Bytes) : Access Bytes :=
  if src.length = 0 then .ok []
  else do
    let buf ← hexDecodeWithDelimiter (src.length / 2) src 0
    if buf.length > 0 then return buf else .error .assertFailed

/-! ### Decoding what digits spell -/

/-- Without a delimiter every turn takes two characters. -/
theorem hexDecodeLoop_two {bufLen : ℕ} {c₁ c₂ h₁ h₂ : UInt8} (rest : Bytes) {buf : Bytes}
    (h₁c : hexDecodeChar c₁ = some h₁) (h₂c : hexDecodeChar c₂ = some h₂)
    (hroom : buf.length < bufLen) :
    hexDecodeLoop bufLen 0 (c₁ :: c₂ :: rest) buf
      = hexDecodeLoop bufLen 0 rest (buf ++ [(h₁ <<< 4) ||| h₂]) := by
  rw [hexDecodeLoop, h₁c, h₂c]
  dsimp only
  rw [if_pos hroom]
  split
  · rw [if_pos rfl]
  · rfl

theorem nibbles_or {d : ℕ} (hd : d < 256) :
    ((UInt8.ofNat (d / 16) <<< 4) ||| UInt8.ofNat (d % 16)) = UInt8.ofNat d := by
  apply UInt8.toNat_inj.mp
  rw [UInt8.toNat_or, UInt8.toNat_shiftLeft, UInt8.toNat_ofNat_of_lt' (show d / 16 < 256 by omega),
    UInt8.toNat_ofNat_of_lt' (show d % 16 < 256 by omega), UInt8.toNat_ofNat_of_lt' hd,
    show (4 : UInt8).toNat % 8 = 4 from rfl, Nat.mod_eq_of_lt (by rw [Nat.shiftLeft_eq]; omega),
    ← Nat.shiftLeft_add_eq_or_of_lt (by omega), Nat.shiftLeft_eq]
  omega

theorem hexDecodeLoop_flatMap {digit : ℕ → UInt8} {bufLen : ℕ}
    (hdigit : ∀ d < 16, hexDecodeChar (digit d) = some (UInt8.ofNat d)) {ds : List ℕ}
    (hds : ∀ d ∈ ds, d < 256) (buf : Bytes) (hroom : buf.length + ds.length ≤ bufLen) :
    hexDecodeLoop bufLen 0 (ds.flatMap fun d => [digit (d / 16), digit (d % 16)]) buf
      = .ok (buf ++ ds.map UInt8.ofNat) := by
  induction ds generalizing buf with
  | nil => simp [hexDecodeLoop]
  | cons d ds ih =>
    have hd := hds d List.mem_cons_self
    rw [List.length_cons] at hroom
    rw [List.flatMap_cons, List.cons_append, List.cons_append, List.nil_append,
      hexDecodeLoop_two _ (hdigit _ (by omega)) (hdigit _ (by omega)) (by omega), nibbles_or hd,
      ih (fun e he => hds e (List.mem_cons_of_mem _ he)) _
        (by rw [List.length_append, List.length_singleton]; omega)]
    rw [List.map_cons, List.append_assoc, List.singleton_append]

/-- **Two digits for every byte decode to the bytes.** -/
theorem hexDecode_flatMap {digit : ℕ → UInt8}
    (hdigit : ∀ d < 16, hexDecodeChar (digit d) = some (UInt8.ofNat d)) {ds : List ℕ}
    (hds : ∀ d ∈ ds, d < 256) (hne : ds ≠ []) :
    hexDecode (ds.flatMap fun d => [digit (d / 16), digit (d % 16)])
      = .ok (ds.map UInt8.ofNat) := by
  have hpos := List.length_pos_iff.mpr hne
  have hlen : (ds.flatMap fun d => [digit (d / 16), digit (d % 16)]).length = 2 * ds.length := by
    simp [List.length_flatMap, Nat.mul_comm]
  have hloop := hexDecodeLoop_flatMap hdigit hds [] (show 0 + ds.length ≤ ds.length by simp)
  rw [List.nil_append] at hloop
  rw [hexDecode, hlen, if_neg (by omega), hexDecodeWithDelimiter, hlen,
    Nat.mul_div_cancel_left _ (by decide : 0 < 2), if_neg (by omega)]
  dsimp only
  rw [if_neg (by simp), hloop, Access.ok_bind, if_pos (by simpa using hpos)]
  rfl

end LearnNetlib
