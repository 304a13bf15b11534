import LearnNetlib.Base.Bytes
import LearnNetlib.Foundations.Loops
import LearnNetlib.Foundations.Numeral
import Mathlib.Data.List.TakeWhile

/-!
# `CUnescape`

* `cUnescape` — the code, on a buffer of its own or in place;
* `Piece`, `Reads` — what a string spells, one number for each character and each escape: any octal
  escape is as long as it can be up to three digits, and any hex escape as long as it can be;
* `unescapeTurn_piece`, `unescapeTurn_stuck` — a turn of the loop takes one piece;
* **`cUnescape_spec`** — what is accepted and returned, the numbers taken modulo `2 ^ 32`;
* **`cUnescape_iff`** — so the accepted strings are the documented ones unless a hex escape from `2 ^ 32`
  on slips through.
-/

namespace LearnNetlib.Strings

/-! ### The code -/

/-- A literal. -/
def text (s : String) : Bytes := s.toList.map Char.toUInt8

/-- `is_octal_digit`. -/
def isOctalDigit (c : UInt8) : Bool := '0'.toUInt8 ≤ c ∧ c ≤ '7'.toUInt8

/-- `ascii_isxdigit`. -/
def asciiIsxdigit (c : UInt8) : Bool :=
  ('0'.toUInt8 ≤ c ∧ c ≤ '9'.toUInt8) ∨ ('a'.toUInt8 ≤ c ∧ c ≤ 'f'.toUInt8) ∨
    ('A'.toUInt8 ≤ c ∧ c ≤ 'F'.toUInt8)

/-- `hex_digit_to_int`. -/
def hexDigitToInt (c : UInt8) : UInt32 :=
  let x := c.toUInt32
  (if '9'.toUInt8.toUInt32 < x then x + 9 else x) &&& 0xf

/-- The cases of the `switch` that are one character. -/
def letterEscape (c : UInt8) : Option UInt8 :=
  if c = 'a'.toUInt8 then some 0x07
  else if c = 'b'.toUInt8 then some 0x08
  else if c = 'f'.toUInt8 then some 0x0c
  else if c = 'n'.toUInt8 then some 0x0a
  else if c = 'r'.toUInt8 then some 0x0d
  else if c = 't'.toUInt8 then some 0x09
  else if c = 'v'.toUInt8 then some 0x0b
  else if c = '\\'.toUInt8 then some '\\'.toUInt8
  else if c = '?'.toUInt8 then some '?'.toUInt8 -- Who knew?
  else if c = '\''.toUInt8 then some '\''.toUInt8
  else if c = '"'.toUInt8 then some '"'.toUInt8
  else none

/-- The case of a number: `start` and `last` are its first and last characters. -/
def checkValue (source : Bytes) (start last : ℕ) (ch : UInt32) : Except Bytes (ℕ × UInt8) :=
  if 0xff < ch then
    .error (text "Value of \\" ++ (source.drop start).take (last + 1 - start) ++ text " exceeds 0xff")
  else .ok (last, ch.toUInt8)

/-- `if (p < last_byte && is_octal_digit(p[1])) ch = ch * 8 + *++p - '0'`. -/
def octalStep (source : Bytes) (p : ℕ) (ch : UInt32) : Access (ℕ × UInt32) :=
  if p + 1 < source.length then do
    let c ← readByte source (p + 1)
    if isOctalDigit c then return (p + 1, ch * 8 + c.toUInt32 - '0'.toUInt8.toUInt32) else return (p, ch)
  else return (p, ch)

/-- Octal digit: 1 to 3 digits. -/
def octalEscape (source : Bytes) (p : ℕ) (c : UInt8) : Access (Except Bytes (ℕ × UInt8)) := do
  let (p₁, ch) ← octalStep source p (c.toUInt32 - '0'.toUInt8.toUInt32)
  let (p₂, ch) ← octalStep source p₁ ch
  return checkValue source p p₂ ch

/-- The loop over the hex digits; the first argument is what `p[1]` begins. -/
def hexLoop : Bytes → ℕ → UInt32 → ℕ × UInt32
  | [], p, ch => (p, ch)
  | c :: rest, p, ch =>
    if asciiIsxdigit c then
      -- Arbitrarily many hex digits
      hexLoop rest (p + 1) ((ch <<< 4) + hexDigitToInt c)
    else (p, ch)

/-- The case of `x` and `X`. -/
def hexEscape (source : Bytes) (p : ℕ) : Access (Except Bytes (ℕ × UInt8)) :=
  if source.length ≤ p + 1 then return .error (text "String cannot end with \\x")
  else do
    let c ← readByte source (p + 1)
    if asciiIsxdigit c then
      let (last, ch) := hexLoop (source.drop (p + 1)) p 0
      return checkValue source p last ch
    else return .error (text "\\x cannot be followed by a non-hex digit")

/-- The `switch`: the last character of the escape and what it stands for, or an error. -/
def decodeEscape (source : Bytes) (p : ℕ) : Access (Except Bytes (ℕ × UInt8)) := do
  let c ← readByte source p
  match letterEscape c with
  | some v => return .ok (p, v)
  | none =>
    if isOctalDigit c then octalEscape source p c
    else if c = 'x'.toUInt8 ∨ c = 'X'.toUInt8 then hexEscape source p
    else return .error (text "Unknown escape sequence: \\" ++ [c])

/-- The source as it is now, `p`, and what has been written up to `d`. -/
structure Cursor where
  source : Bytes
  p : ℕ
  dest : Bytes
  deriving Repr, DecidableEq

/-- `*d++ = v`, in a buffer that is as long as the source, or is the source. -/
def Cursor.put (inPlace : Bool) (v : UInt8) (c : Cursor) : Access Cursor :=
  if c.dest.length < c.source.length then
    return { c with
      source := if inPlace then c.source.set c.dest.length v else c.source
      dest := c.dest ++ [v] }
  else .error .outOfBounds

/-- A turn of the loop of `CUnescapeInternal`, which ends with the string or with an error. -/
def unescapeTurn (inPlace : Bool) (c : Cursor) : Access (Cursor ⊕ Except Bytes Bytes) :=
  if c.p < c.source.length then do
    let ch ← readByte c.source c.p
    if ch ≠ '\\'.toUInt8 then
      let c' ← c.put inPlace ch
      return .inl { c' with p := c.p + 1 }
    else if c.source.length ≤ c.p + 1 then return .inr (.error (text "String cannot end with \\"))
    else
      match ← decodeEscape c.source (c.p + 1) with
      | .error msg => return .inr (.error msg)
      | .ok (last, v) =>
        let c' ← c.put inPlace v
        return .inl { c' with p := last + 1 }
  else return .inr (.ok c.dest)

/-- How far the first loop goes where source and destination are one. -/
def plainPrefix : Bytes → ℕ
  | [] => 0
  | c :: rest => if c ≠ '\\'.toUInt8 then plainPrefix rest + 1 else 0

/-- Where the main loop begins. -/
def firstCursor (inPlace : Bool) (source : Bytes) : Cursor :=
  -- Small optimization for case where source = dest and there's no escaping
  if inPlace then ⟨source, plainPrefix source, source.take (plainPrefix source)⟩ else ⟨source, 0, []⟩

/-- `CUnescape`: the string, or the message. -/
def cUnescape (inPlace : Bool) (source : Bytes) : Access (Except Bytes Bytes) :=
  Loops.loop .stillRunning (unescapeTurn inPlace) (source.length + 1) (firstCursor inPlace source)

/-! ### What a string spells -/

/-- The value of an octal digit. -/
def octalDigit (c : UInt8) : ℕ := c.toNat - '0'.toNat

/-- The value of a hex digit. -/
def hexDigit (c : UInt8) : ℕ :=
  if c ≤ '9'.toUInt8 then c.toNat - '0'.toNat
  else if c ≤ 'F'.toUInt8 then c.toNat - 'A'.toNat + 10
  else c.toNat - 'a'.toNat + 10

/-- Nothing of a kind follows. -/
def Ends (kind : UInt8 → Bool) (rest : Bytes) : Prop := ∀ c ∈ rest.head?, kind c = false

/-- A character, or an escape, at the front of a string: the number it stands for and the rest. -/
inductive Piece : Bytes → ℕ → Bytes → Prop
  | plain {c : UInt8} (hc : c ≠ '\\'.toUInt8) (rest : Bytes) : Piece (c :: rest) c.toNat rest
  | letter {c v : UInt8} (hc : letterEscape c = some v) (rest : Bytes) :
      Piece ('\\'.toUInt8 :: c :: rest) v.toNat rest
  | octal {ds rest : Bytes} (hds : ∀ d ∈ ds, isOctalDigit d = true) (hne : ds ≠ []) (hlength : ds.length ≤ 3)
      (hmax : ds.length = 3 ∨ Ends isOctalDigit rest) :
      Piece ('\\'.toUInt8 :: (ds ++ rest)) (Numeral.value 8 (ds.map octalDigit)) rest
  | hex {x : UInt8} {ds rest : Bytes} (hx : x = 'x'.toUInt8 ∨ x = 'X'.toUInt8)
      (hds : ∀ d ∈ ds, asciiIsxdigit d = true) (hne : ds ≠ []) (hmax : Ends asciiIsxdigit rest) :
      Piece ('\\'.toUInt8 :: x :: (ds ++ rest)) (Numeral.value 16 (ds.map hexDigit)) rest

/-- The numbers of all pieces of a string. -/
inductive Reads : Bytes → List ℕ → Prop
  | nil : Reads [] []
  | cons {s rest : Bytes} {v : ℕ} {vs : List ℕ} (h : Piece s v rest) (hrest : Reads rest vs) :
      Reads s (v :: vs)

/-! ### One reading at most -/

theorem isOctalDigit_iff (c : UInt8) : isOctalDigit c = true ↔ 48 ≤ c.toNat ∧ c.toNat ≤ 55 := by
  rw [isOctalDigit, decide_eq_true_eq, UInt8.le_iff_toNat_le, UInt8.le_iff_toNat_le]
  rfl

theorem asciiIsxdigit_iff (c : UInt8) : asciiIsxdigit c = true ↔
    (48 ≤ c.toNat ∧ c.toNat ≤ 57) ∨ (97 ≤ c.toNat ∧ c.toNat ≤ 102) ∨ (65 ≤ c.toNat ∧ c.toNat ≤ 70) := by
  rw [asciiIsxdigit, decide_eq_true_eq]
  simp only [UInt8.le_iff_toNat_le]
  rfl

theorem hexDigit_cases {c : UInt8} (hc : asciiIsxdigit c = true) :
    ((48 ≤ c.toNat ∧ c.toNat ≤ 57) ∧ hexDigit c = c.toNat - 48) ∨
      ((97 ≤ c.toNat ∧ c.toNat ≤ 102) ∧ hexDigit c = c.toNat - 97 + 10) ∨
        (65 ≤ c.toNat ∧ c.toNat ≤ 70) ∧ hexDigit c = c.toNat - 65 + 10 := by
  have hnine : c ≤ '9'.toUInt8 ↔ c.toNat ≤ 57 := UInt8.le_iff_toNat_le
  have hupper : c ≤ 'F'.toUInt8 ↔ c.toNat ≤ 70 := UInt8.le_iff_toNat_le
  rcases (asciiIsxdigit_iff c).mp hc with h | h | h
  · exact .inl ⟨h, if_pos (hnine.mpr h.2)⟩
  · refine .inr (.inl ⟨h, ?_⟩)
    rw [hexDigit, if_neg (mt hnine.mp (by omega)), if_neg (mt hupper.mp (by omega))]
    rfl
  · refine .inr (.inr ⟨h, ?_⟩)
    rw [hexDigit, if_neg (mt hnine.mp (by omega)), if_pos (hupper.mpr h.2)]
    rfl

theorem hexDigit_lt {c : UInt8} (hc : asciiIsxdigit c = true) : hexDigit c < 16 := by
  have hcases := hexDigit_cases hc
  omega

/-- Neither digits nor `x` are letters of the `switch`. -/
theorem letterEscape_eq_none {c : UInt8}
    (hc : isOctalDigit c = true ∨ c = 'x'.toUInt8 ∨ c = 'X'.toUInt8) : letterEscape c = none := by
  rcases hc with hc | rfl | rfl
  · have hne : ∀ k : UInt8, 55 < k.toNat ∨ k.toNat < 48 → c ≠ k := by
      rintro k hk rfl
      have := (isOctalDigit_iff c).mp hc
      omega
    rw [letterEscape, if_neg (hne _ (by decide)), if_neg (hne _ (by decide)), if_neg (hne _ (by decide)),
      if_neg (hne _ (by decide)), if_neg (hne _ (by decide)), if_neg (hne _ (by decide)),
      if_neg (hne _ (by decide)), if_neg (hne _ (by decide)), if_neg (hne _ (by decide)),
      if_neg (hne _ (by decide)), if_neg (hne _ (by decide))]
  · decide
  · decide

theorem not_isOctalDigit_of_x {c : UInt8} (hc : c = 'x'.toUInt8 ∨ c = 'X'.toUInt8) : isOctalDigit c = false := by
  rcases hc with rfl | rfl
  · decide
  · decide

theorem takeWhile_of_ends {kind : UInt8 → Bool} {ds rest : Bytes} (hds : ∀ d ∈ ds, kind d = true)
    (hmax : Ends kind rest) : (ds ++ rest).takeWhile kind = ds := by
  rw [List.takeWhile_append_of_pos hds]
  cases rest with
  | nil => rw [List.takeWhile_nil, List.append_nil]
  | cons c rest =>
    rw [List.takeWhile_cons_of_neg (by rw [hmax c rfl]; decide), List.append_nil]

/-- The digits of an octal escape are the octal digits among the next three characters. -/
theorem takeWhile_octal {ds rest : Bytes} (hds : ∀ d ∈ ds, isOctalDigit d = true) (hlength : ds.length ≤ 3)
    (hmax : ds.length = 3 ∨ Ends isOctalDigit rest) :
    ((ds ++ rest).take 3).takeWhile isOctalDigit = ds := by
  rw [List.take_append, List.take_of_length_le hlength]
  refine takeWhile_of_ends hds ?_
  rcases hmax with hthree | hends
  · rw [hthree]
    exact fun c hc => absurd hc (by simp)
  · intro c hc
    cases rest with
    | nil => simp at hc
    | cons d rest =>
      cases hk : 3 - ds.length with
      | zero => simp [hk] at hc
      | succ k =>
        rw [hk, List.take_succ_cons] at hc
        exact hends c hc

/-- The escape behind a backslash, computed. -/
def firstEscape : Bytes → Option (ℕ × Bytes)
  | [] => none
  | c :: rest =>
    match letterEscape c with
    | some v => some (v.toNat, rest)
    | none =>
      if isOctalDigit c then
        let ds := ((c :: rest).take 3).takeWhile isOctalDigit
        some (Numeral.value 8 (ds.map octalDigit), (c :: rest).drop ds.length)
      else if (c = 'x'.toUInt8 ∨ c = 'X'.toUInt8) ∧ rest.takeWhile asciiIsxdigit ≠ [] then
        some (Numeral.value 16 ((rest.takeWhile asciiIsxdigit).map hexDigit),
          rest.drop (rest.takeWhile asciiIsxdigit).length)
      else none

/-- The first piece of a string, computed. -/
def firstPiece : Bytes → Option (ℕ × Bytes)
  | [] => none
  | c :: rest => if c = '\\'.toUInt8 then firstEscape rest else some (c.toNat, rest)

theorem firstPiece_backslash (rest : Bytes) : firstPiece ('\\'.toUInt8 :: rest) = firstEscape rest := by
  rw [firstPiece, if_pos rfl]

theorem firstPiece_of_piece {s rest : Bytes} {v : ℕ} (h : Piece s v rest) :
    firstPiece s = some (v, rest) := by
  cases h with
  | plain hc => exact if_neg hc
  | letter hc => simp only [firstPiece_backslash, firstEscape, hc]
  | @octal ds _ hds hne hlength hmax =>
    obtain ⟨d, ds, rfl⟩ := List.exists_cons_of_ne_nil hne
    have hd := hds d List.mem_cons_self
    have hdigits := takeWhile_octal hds hlength hmax
    have hdrop : (d :: ds ++ rest).drop (d :: ds).length = rest := List.drop_left
    rw [List.cons_append] at hdigits hdrop
    rw [firstPiece_backslash, List.cons_append]
    simp only [firstEscape, letterEscape_eq_none (.inl hd), hd, if_true, hdigits, hdrop]
  | @hex x ds rest hx hds hne hmax =>
    have hdigits := takeWhile_of_ends hds hmax
    rw [firstPiece_backslash]
    simp only [firstEscape, letterEscape_eq_none (.inr hx), not_isOctalDigit_of_x hx, hdigits,
      Bool.false_eq_true, if_false, if_pos (And.intro hx hne), List.drop_left]

/-- **A string has one first piece at most.** -/
theorem Piece.unique {s : Bytes} {v v' : ℕ} {rest rest' : Bytes} (h : Piece s v rest)
    (h' : Piece s v' rest') : v = v' ∧ rest = rest' := by
  have hsome := (firstPiece_of_piece h).symm.trans (firstPiece_of_piece h')
  exact Prod.mk.inj (Option.some.inj hsome)

theorem not_piece_nil {v : ℕ} {rest : Bytes} : ¬ Piece [] v rest := by
  intro h
  have hsome := firstPiece_of_piece h
  cases hsome

theorem reads_nil_iff (vs : List ℕ) : Reads [] vs ↔ vs = [] := by
  constructor
  · intro h
    cases h with
    | nil => rfl
    | cons hpiece => exact absurd hpiece not_piece_nil
  · rintro rfl
    exact .nil

/-- **The reading of a string** is its first piece and the reading of the rest. -/
theorem reads_iff {s rest : Bytes} {v : ℕ} (h : Piece s v rest) (vs : List ℕ) :
    Reads s vs ↔ ∃ vs', vs = v :: vs' ∧ Reads rest vs' := by
  constructor
  · intro hreads
    cases hreads with
    | nil => exact absurd h not_piece_nil
    | cons h' hrest =>
      obtain ⟨rfl, rfl⟩ := h.unique h'
      exact ⟨_, rfl, hrest⟩
  · rintro ⟨vs', rfl, hrest⟩
    exact .cons h hrest

theorem Reads.unique {s : Bytes} {vs vs' : List ℕ} (h : Reads s vs) (h' : Reads s vs') : vs = vs' := by
  induction h generalizing vs' with
  | nil => exact ((reads_nil_iff vs').mp h').symm
  | cons hpiece _ ih =>
    obtain ⟨vs'', rfl, hrest⟩ := (reads_iff hpiece vs').mp h'
    rw [ih hrest]

/-! ### Numbers -/

/-- Digits behind a number. -/
def extend (b acc : ℕ) (ds : List ℕ) : ℕ := ds.foldl (fun acc d => acc * b + d) acc

theorem toNat_octal_sub {c : UInt8} (hc : isOctalDigit c = true) :
    (c.toUInt32 - '0'.toUInt8.toUInt32).toNat = octalDigit c := by
  have hrange := (isOctalDigit_iff c).mp hc
  rw [UInt32.toNat_sub, UInt8.toNat_toUInt32]
  show (2 ^ 32 - 48 + c.toNat) % 2 ^ 32 = c.toNat - 48
  omega

theorem toNat_octal_step {c : UInt8} (hc : isOctalDigit c = true) {ch : UInt32} (hch : ch.toNat < 2 ^ 16) :
    (ch * 8 + c.toUInt32 - '0'.toUInt8.toUInt32).toNat = ch.toNat * 8 + octalDigit c := by
  have hrange := (isOctalDigit_iff c).mp hc
  rw [UInt32.toNat_sub, UInt32.toNat_add, UInt32.toNat_mul, UInt8.toNat_toUInt32]
  show (2 ^ 32 - 48 + (ch.toNat * 8 % 2 ^ 32 + c.toNat) % 2 ^ 32) % 2 ^ 32 = ch.toNat * 8 + (c.toNat - 48)
  omega

theorem toNat_hexDigitToInt {c : UInt8} (hc : asciiIsxdigit c = true) :
    (hexDigitToInt c).toNat = hexDigit c := by
  have hmask : ∀ x : UInt32, (x &&& 0xf).toNat = x.toNat % 16 := by
    intro x
    rw [UInt32.toNat_and]
    exact Nat.and_two_pow_sub_one_eq_mod x.toNat 4
  have hlt : '9'.toUInt8.toUInt32 < c.toUInt32 ↔ 57 < c.toNat := by
    rw [UInt32.lt_iff_toNat_lt, UInt8.toNat_toUInt32]
    rfl
  have hletter : (c.toUInt32 + 9).toNat = c.toNat + 9 := by
    have hbyte := c.toNat_lt
    rw [UInt32.toNat_add, UInt8.toNat_toUInt32]
    show (c.toNat + 9) % 2 ^ 32 = _
    omega
  rw [hexDigitToInt, hmask]
  rcases hexDigit_cases hc with ⟨hrange, hvalue⟩ | ⟨hrange, hvalue⟩ | ⟨hrange, hvalue⟩
  · rw [if_neg (mt hlt.mp (by omega)), UInt8.toNat_toUInt32, hvalue]
    omega
  · rw [if_pos (hlt.mpr (by omega)), hletter, hvalue]
    omega
  · rw [if_pos (hlt.mpr (by omega)), hletter, hvalue]
    omega

/-- **The loop over the hex digits** computes modulo `2 ^ 32`. -/
theorem hexLoop_append {ds rest : Bytes} (hds : ∀ d ∈ ds, asciiIsxdigit d = true)
    (hmax : Ends asciiIsxdigit rest) (p : ℕ) (ch : UInt32) :
    (hexLoop (ds ++ rest) p ch).1 = p + ds.length ∧
    (hexLoop (ds ++ rest) p ch).2.toNat = extend 16 ch.toNat (ds.map hexDigit) % 2 ^ 32 := by
  induction ds generalizing p ch with
  | nil =>
    have hch : ch.toNat % 2 ^ 32 = ch.toNat := Nat.mod_eq_of_lt ch.toNat_lt
    rw [List.nil_append]
    cases rest with
    | nil => exact ⟨rfl, hch.symm⟩
    | cons c rest =>
      rw [hexLoop, if_neg (by rw [hmax c rfl]; decide)]
      exact ⟨rfl, hch.symm⟩
  | cons d ds ih =>
    obtain ⟨hd, hds⟩ := List.forall_mem_cons.mp hds
    have hstep : ((ch <<< 4) + hexDigitToInt d).toNat = (ch.toNat * 16 + hexDigit d) % 2 ^ 32 := by
      rw [UInt32.toNat_add, toNat_hexDigitToInt hd, UInt32.toNat_shiftLeft, Nat.shiftLeft_eq]
      exact Nat.mod_add_mod _ _ _
    have hmod : ∀ (ds : List ℕ) (acc : ℕ),
        extend 16 (acc % 2 ^ 32) ds % 2 ^ 32 = extend 16 acc ds % 2 ^ 32 := by
      intro ds
      induction ds with
      | nil => exact fun acc => Nat.mod_mod _ _
      | cons d ds ih =>
        intro acc
        show extend 16 (acc % 2 ^ 32 * 16 + d) ds % 2 ^ 32 = extend 16 (acc * 16 + d) ds % 2 ^ 32
        rw [← ih, ← ih (acc * 16 + d)]
        congr 2
        omega
    rw [List.cons_append, hexLoop, if_pos hd]
    obtain ⟨hp, hvalue⟩ := ih hds (p + 1) ((ch <<< 4) + hexDigitToInt d)
    refine ⟨?_, ?_⟩
    · rw [hp, List.length_cons]
      omega
    · rw [hvalue, hstep, hmod]
      rfl

/-! ### A turn -/

/-- What is done with a number: an error, or its character and where it ends. -/
def Valued (res : Except Bytes (ℕ × UInt8)) (source : Bytes) (p v : ℕ) (rest : Bytes) : Prop :=
  (0xff < v % 2 ^ 32 ∧ ∃ msg, res = .error msg) ∨
    (v % 2 ^ 32 ≤ 0xff ∧ ∃ last, res = .ok (last, v.toUInt8) ∧ source.drop (last + 1) = rest ∧ p ≤ last)

variable {source rest : Bytes} {p : ℕ}

theorem readByte_of_drop {c : UInt8} (h : source.drop p = c :: rest) : readByte source p = .ok c :=
  Bytes.HasAt.readByte (show c :: rest <+: source.drop p from h ▸ List.prefix_rfl)

theorem drop_succ_of_drop {c : UInt8} (h : source.drop p = c :: rest) : source.drop (p + 1) = rest := by
  rw [← List.drop_drop, h]
  rfl

theorem lt_length_of_drop {c : UInt8} (h : source.drop p = c :: rest) : p < source.length := by
  by_contra hge
  rw [List.drop_eq_nil_of_le (Nat.not_lt.mp hge)] at h
  cases h

theorem checkValue_valued {start last v : ℕ} {ch : UInt32} (hch : ch.toNat = v % 2 ^ 32)
    (hrest : source.drop (last + 1) = rest) (hlast : p ≤ last) :
    Valued (checkValue source start last ch) source p v rest := by
  have hlt : 0xff < ch ↔ 0xff < v % 2 ^ 32 := by
    rw [UInt32.lt_iff_toNat_lt, hch]
    rfl
  rw [checkValue]
  split_ifs with h
  · exact .inl ⟨hlt.mp h, _, rfl⟩
  · have hbyte : ch.toUInt8 = v.toUInt8 := by
      apply UInt8.toNat_inj.mp
      rw [UInt32.toNat_toUInt8, hch]
      show v % 2 ^ 32 % 2 ^ 8 = v % 2 ^ 8
      omega
    exact .inr ⟨Nat.not_lt.mp (mt hlt.mpr h), last, by rw [hbyte], hrest, hlast⟩

theorem octalStep_cons {d : UInt8} (hd : isOctalDigit d = true) (hrest : source.drop (p + 1) = d :: rest)
    (ch : UInt32) : octalStep source p ch = .ok (p + 1, ch * 8 + d.toUInt32 - '0'.toUInt8.toUInt32) := by
  rw [octalStep, if_pos (lt_length_of_drop hrest), readByte_of_drop hrest]
  exact if_pos hd

theorem octalStep_ends (hrest : source.drop (p + 1) = rest) (hmax : Ends isOctalDigit rest) (ch : UInt32) :
    octalStep source p ch = .ok (p, ch) := by
  rw [octalStep]
  split_ifs with hp
  · cases rest with
    | nil => exact absurd (List.drop_eq_nil_iff.mp hrest) (Nat.not_le.mpr hp)
    | cons c rest =>
      rw [readByte_of_drop hrest]
      exact if_neg (by rw [hmax c rfl]; decide)
  · rfl

theorem octalDigit_le {c : UInt8} (hc : isOctalDigit c = true) : octalDigit c ≤ 7 := by
  have hrange := (isOctalDigit_iff c).mp hc
  show c.toNat - 48 ≤ 7
  omega

theorem octalEscape_eq {c : UInt8} {p₁ p₂ : ℕ} {ch₁ ch₂ : UInt32}
    (h₁ : octalStep source p (c.toUInt32 - '0'.toUInt8.toUInt32) = .ok (p₁, ch₁))
    (h₂ : octalStep source p₁ ch₁ = .ok (p₂, ch₂)) :
    octalEscape source p c = .ok (checkValue source p p₂ ch₂) := by
  rw [octalEscape, h₁, Access.ok_bind]
  dsimp only
  rw [h₂]
  rfl

/-- The case of an octal digit: two steps, each of which may find no digit. -/
theorem octalEscape_valued {d : UInt8} {ds : Bytes} (hdrop : source.drop p = d :: (ds ++ rest))
    (hds : ∀ x ∈ d :: ds, isOctalDigit x = true) (hlength : ds.length ≤ 2)
    (hmax : ds.length = 2 ∨ Ends isOctalDigit rest) :
    ∃ res, octalEscape source p d = .ok res ∧
      Valued res source p (Numeral.value 8 ((d :: ds).map octalDigit)) rest := by
  obtain ⟨hd, hds⟩ := List.forall_mem_cons.mp hds
  have hch := toNat_octal_sub hd
  have hle := octalDigit_le hd
  have hsmall : (d.toUInt32 - '0'.toUInt8.toUInt32).toNat < 2 ^ 16 := by omega
  have hbehind := drop_succ_of_drop hdrop
  cases ds with
  | nil =>
    have hends : Ends isOctalDigit rest := hmax.resolve_left (Nat.succ_ne_zero 1).symm
    have hstep := octalStep_ends hbehind hends (d.toUInt32 - '0'.toUInt8.toUInt32)
    have hvalue : (d.toUInt32 - '0'.toUInt8.toUInt32).toNat
        = Numeral.value 8 [octalDigit d] % 2 ^ 32 := by
      rw [hch]
      show octalDigit d = (0 * 8 + octalDigit d) % 2 ^ 32
      omega
    exact ⟨_, octalEscape_eq hstep hstep, checkValue_valued hvalue hbehind (Nat.le_refl p)⟩
  | cons d₁ ds =>
    obtain ⟨hd₁, hds⟩ := List.forall_mem_cons.mp hds
    have hstep₁ := octalStep_cons hd₁ hbehind (d.toUInt32 - '0'.toUInt8.toUInt32)
    have hch₁ := toNat_octal_step hd₁ hsmall
    have hle₁ := octalDigit_le hd₁
    have hbehind₁ := drop_succ_of_drop hbehind
    rw [hch] at hch₁
    cases ds with
    | nil =>
      have hends : Ends isOctalDigit rest := hmax.resolve_left (Nat.succ_ne_succ_iff.mpr Nat.zero_ne_one)
      refine ⟨_, octalEscape_eq hstep₁ (octalStep_ends hbehind₁ hends _),
        checkValue_valued ?_ hbehind₁ (Nat.le_succ p)⟩
      rw [hch₁]
      show _ = ((0 * 8 + octalDigit d) * 8 + octalDigit d₁) % 2 ^ 32
      omega
    | cons d₂ ds =>
      obtain ⟨hd₂, -⟩ := List.forall_mem_cons.mp hds
      rw [List.length_cons, List.length_cons] at hlength
      obtain rfl : ds = [] := List.eq_nil_of_length_eq_zero (by omega)
      have hch₂ := toNat_octal_step hd₂ (by rw [hch₁]; omega)
      have hle₂ := octalDigit_le hd₂
      rw [hch₁] at hch₂
      refine ⟨_, octalEscape_eq hstep₁ (octalStep_cons hd₂ hbehind₁ _),
        checkValue_valued ?_ (drop_succ_of_drop hbehind₁) (Nat.le_add_right p 2)⟩
      rw [hch₂]
      show _ = (((0 * 8 + octalDigit d) * 8 + octalDigit d₁) * 8 + octalDigit d₂) % 2 ^ 32
      omega

/-- The case of `x`: all hex digits that follow. -/
theorem hexEscape_valued {ds : Bytes} (hdrop : source.drop (p + 1) = ds ++ rest)
    (hds : ∀ d ∈ ds, asciiIsxdigit d = true) (hne : ds ≠ []) (hmax : Ends asciiIsxdigit rest) :
    ∃ res, hexEscape source p = .ok res ∧
      Valued res source p (Numeral.value 16 (ds.map hexDigit)) rest := by
  obtain ⟨d, ds', rfl⟩ := List.exists_cons_of_ne_nil hne
  have hread : source.drop (p + 1) = d :: (ds' ++ rest) := hdrop
  have hlt := lt_length_of_drop hread
  obtain ⟨hlast, hch⟩ := hexLoop_append hds hmax p 0
  have hrest : source.drop ((hexLoop (d :: ds' ++ rest) p 0).1 + 1) = rest := by
    rw [hlast, Nat.add_right_comm, ← List.drop_drop, hdrop, List.drop_left]
  have hle : p ≤ (hexLoop (d :: ds' ++ rest) p 0).1 := by
    rw [hlast]
    exact Nat.le_add_right _ _
  have hrun : hexEscape source p = .ok (checkValue source p (hexLoop (d :: ds' ++ rest) p 0).1
      (hexLoop (d :: ds' ++ rest) p 0).2) := by
    rw [hexEscape, if_neg (Nat.not_le.mpr hlt), readByte_of_drop hread, Access.ok_bind,
      if_pos (hds d List.mem_cons_self), hdrop]
    rfl
  exact ⟨_, hrun, checkValue_valued hch hrest hle⟩

/-- The cursor behind a piece that has been written. -/
def Cursor.written (inPlace : Bool) (v : UInt8) (next : ℕ) (c : Cursor) : Cursor :=
  ⟨if inPlace then c.source.set c.dest.length v else c.source, next, c.dest ++ [v]⟩

theorem put_ok (inPlace : Bool) (v : UInt8) {c : Cursor} (hlt : c.dest.length < c.source.length) :
    c.put inPlace v = .ok (c.written inPlace v c.p) := if_pos hlt

/-- What is written in front of the cursor does not change what is behind it. -/
theorem drop_written (inPlace : Bool) (v : UInt8) {next : ℕ} {c : Cursor} (hbehind : c.dest.length < next) :
    (c.written inPlace v next).source.drop next = c.source.drop next := by
  show (if inPlace = true then c.source.set c.dest.length v else c.source).drop next = _
  split_ifs
  · exact List.drop_set_of_lt hbehind
  · rfl

/-- What a turn does with a piece: it ends with an error if the number is too large modulo `2 ^ 32`, and
else writes its character and goes on behind it. -/
def Takes (inPlace : Bool) (c : Cursor) (v : ℕ) (rest : Bytes) : Prop :=
  (0xff < v % 2 ^ 32 ∧ ∃ msg, unescapeTurn inPlace c = .ok (.inr (.error msg))) ∨
    (v % 2 ^ 32 ≤ 0xff ∧ ∃ c', unescapeTurn inPlace c = .ok (.inl c') ∧ c'.source.drop c'.p = rest ∧
      c'.dest = c.dest ++ [v.toUInt8] ∧ c'.dest.length ≤ c'.p)

theorem takes_of_written {inPlace : Bool} {c : Cursor} {v next : ℕ} (hsmall : v % 2 ^ 32 ≤ 0xff)
    (hturn : unescapeTurn inPlace c = .ok (.inl (c.written inPlace v.toUInt8 next)))
    (hrest : c.source.drop next = rest) (hbehind : c.dest.length < next) : Takes inPlace c v rest := by
  refine .inr ⟨hsmall, _, hturn, (drop_written inPlace _ hbehind).trans hrest, rfl, ?_⟩
  show (c.dest ++ [v.toUInt8]).length ≤ next
  rw [List.length_append, List.length_singleton]
  exact hbehind

theorem byte_small (v : UInt8) : v.toNat % 2 ^ 32 ≤ 0xff := by
  have := v.toNat_lt
  omega

theorem toUInt8_toNat (v : UInt8) : v.toNat.toUInt8 = v := UInt8.ofNat_toNat

theorem map_toUInt8_toNat (s : Bytes) : (s.map UInt8.toNat).map Nat.toUInt8 = s := by
  rw [List.map_map]
  exact (List.map_congr_left fun c _ => toUInt8_toNat c).trans (List.map_id s)

section Turn

variable (inPlace : Bool) {c : Cursor} (hbehind : c.dest.length ≤ c.p)

/-- A turn at a backslash that is not the last character. -/
theorem unescapeTurn_backslash {e : UInt8} {t : Bytes}
    (hdrop : c.source.drop c.p = '\\'.toUInt8 :: e :: t) :
    unescapeTurn inPlace c = (do
      match ← decodeEscape c.source (c.p + 1) with
      | .error msg => return .inr (.error msg)
      | .ok (last, v) =>
        let c' ← c.put inPlace v
        return .inl { c' with p := last + 1 }) := by
  have hlt := lt_length_of_drop (drop_succ_of_drop hdrop)
  rw [unescapeTurn, if_pos (lt_length_of_drop hdrop), readByte_of_drop hdrop, Access.ok_bind,
    if_neg (by simp), if_neg (Nat.not_le.mpr hlt)]

include hbehind

theorem takes_of_valued {e : UInt8} {t : Bytes} (hdrop : c.source.drop c.p = '\\'.toUInt8 :: e :: t)
    {res : Except Bytes (ℕ × UInt8)} (hres : decodeEscape c.source (c.p + 1) = .ok res) {v : ℕ}
    (hvalued : Valued res c.source (c.p + 1) v rest) : Takes inPlace c v rest := by
  have hput := put_ok inPlace v.toUInt8 (Nat.lt_of_le_of_lt hbehind (lt_length_of_drop hdrop))
  rcases hvalued with ⟨hlarge, msg, rfl⟩ | ⟨hsmall, last, rfl, hrest, hlast⟩
  · refine .inl ⟨hlarge, msg, ?_⟩
    rw [unescapeTurn_backslash inPlace hdrop, hres]
    rfl
  · refine takes_of_written hsmall ?_ hrest (by omega)
    rw [unescapeTurn_backslash inPlace hdrop, hres, Access.ok_bind]
    dsimp only
    rw [hput]
    rfl

/-- **A turn takes one piece.** -/
theorem unescapeTurn_piece {v : ℕ} (h : Piece (c.source.drop c.p) v rest) : Takes inPlace c v rest := by
  generalize hdrop : c.source.drop c.p = s at h
  cases h with
  | @plain ch hch =>
    have hlt := lt_length_of_drop hdrop
    refine takes_of_written (byte_small ch) ?_ (drop_succ_of_drop hdrop) (Nat.lt_succ_of_le hbehind)
    rw [unescapeTurn, if_pos hlt, readByte_of_drop hdrop, Access.ok_bind, if_pos hch,
      put_ok inPlace ch (Nat.lt_of_le_of_lt hbehind hlt), toUInt8_toNat]
    rfl
  | @letter e v he =>
    have hread := drop_succ_of_drop hdrop
    have hdecode : decodeEscape c.source (c.p + 1) = .ok (.ok (c.p + 1, v)) := by
      rw [decodeEscape, readByte_of_drop hread, Access.ok_bind, he]
      rfl
    refine takes_of_valued inPlace hbehind hdrop hdecode (.inr ⟨byte_small v, c.p + 1, ?_,
      drop_succ_of_drop hread, Nat.le_refl _⟩)
    rw [toUInt8_toNat]
  | @octal ds _ hds hne hlength hmax =>
    obtain ⟨d, ds, rfl⟩ := List.exists_cons_of_ne_nil hne
    have hd := hds d List.mem_cons_self
    have hread := drop_succ_of_drop hdrop
    have hdecode : decodeEscape c.source (c.p + 1) = octalEscape c.source (c.p + 1) d := by
      rw [decodeEscape, readByte_of_drop hread, Access.ok_bind, letterEscape_eq_none (.inl hd)]
      exact if_pos hd
    obtain ⟨res, hres, hvalued⟩ := octalEscape_valued hread hds (Nat.le_of_succ_le_succ hlength)
      (hmax.imp_left Nat.succ.inj)
    exact takes_of_valued inPlace hbehind hdrop (hdecode.trans hres) hvalued
  | @hex x ds _ hx hds hne hmax =>
    have hread := drop_succ_of_drop hdrop
    have hdecode : decodeEscape c.source (c.p + 1) = hexEscape c.source (c.p + 1) := by
      rw [decodeEscape, readByte_of_drop hread, Access.ok_bind, letterEscape_eq_none (.inr hx)]
      simp only [not_isOctalDigit_of_x hx, Bool.false_eq_true, if_false, if_pos hx]
    obtain ⟨res, hres, hvalued⟩ := hexEscape_valued (drop_succ_of_drop hread) hds hne hmax
    exact takes_of_valued inPlace hbehind hdrop (hdecode.trans hres) hvalued

end Turn

theorem unescapeTurn_end (inPlace : Bool) {c : Cursor} (h : c.source.drop c.p = []) :
    unescapeTurn inPlace c = .ok (.inr (.ok c.dest)) :=
  if_neg (Nat.not_lt.mpr (List.drop_eq_nil_iff.mp h))

theorem ends_nil (kind : UInt8 → Bool) : Ends kind [] := by
  intro c hc
  cases hc

/-- An octal digit begins an octal escape. -/
theorem exists_octal_piece {d : UInt8} (hd : isOctalDigit d = true) (t : Bytes) :
    ∃ v rest, Piece ('\\'.toUInt8 :: d :: t) v rest := by
  have hends : ∀ {x : UInt8} {t : Bytes}, ¬ isOctalDigit x = true → Ends isOctalDigit (x :: t) := by
    intro x t hx c hc
    obtain rfl := Option.some.inj hc
    exact Bool.eq_false_iff.mpr hx
  have hpiece : ∀ ds rest : Bytes, (∀ x ∈ ds, isOctalDigit x = true) → ds.length ≤ 2 →
      (ds.length = 2 ∨ Ends isOctalDigit rest) → ∃ v r, Piece ('\\'.toUInt8 :: d :: (ds ++ rest)) v r := by
    intro ds rest hds hlength hmax
    have hall : ∀ x ∈ d :: ds, isOctalDigit x = true := List.forall_mem_cons.mpr ⟨hd, hds⟩
    exact ⟨_, rest, .octal hall (List.cons_ne_nil d ds) (Nat.succ_le_succ hlength)
      (hmax.imp_left (congrArg Nat.succ))⟩
  cases t with
  | nil => exact hpiece [] [] (List.forall_mem_nil _) (Nat.zero_le 2) (.inr (ends_nil _))
  | cons d₁ t =>
    by_cases hd₁ : isOctalDigit d₁ = true
    · cases t with
      | nil => exact hpiece [d₁] [] (List.forall_mem_singleton.mpr hd₁) (Nat.le_succ 1) (.inr (ends_nil _))
      | cons d₂ t =>
        by_cases hd₂ : isOctalDigit d₂ = true
        · exact hpiece [d₁, d₂] t (List.forall_mem_cons.mpr ⟨hd₁, List.forall_mem_singleton.mpr hd₂⟩)
            (Nat.le_refl 2) (.inl rfl)
        · exact hpiece [d₁] _ (List.forall_mem_singleton.mpr hd₁) (Nat.le_succ 1) (.inr (hends hd₂))
    · exact hpiece [] _ (List.forall_mem_nil _) (Nat.zero_le 2) (.inr (hends hd₁))

/-- A hex digit behind `x` begins the digits of a hex escape. -/
theorem exists_hex_piece {x d : UInt8} (hx : x = 'x'.toUInt8 ∨ x = 'X'.toUInt8)
    (hd : asciiIsxdigit d = true) (t : Bytes) : ∃ v rest, Piece ('\\'.toUInt8 :: x :: d :: t) v rest := by
  have hsplit : (d :: t).takeWhile asciiIsxdigit ++ (d :: t).dropWhile asciiIsxdigit = d :: t :=
    List.takeWhile_append_dropWhile
  have hne : (d :: t).takeWhile asciiIsxdigit ≠ [] := by
    rw [List.takeWhile_cons_of_pos hd]
    exact List.cons_ne_nil _ _
  have hmax : Ends asciiIsxdigit ((d :: t).dropWhile asciiIsxdigit) := by
    intro c hc
    have hnot := List.head?_dropWhile_not asciiIsxdigit (d :: t)
    rw [show ((d :: t).dropWhile asciiIsxdigit).head? = some c from hc] at hnot
    exact hnot
  rw [← hsplit]
  exact ⟨_, _, .hex hx (fun _ hc => List.mem_takeWhile_imp hc) hne hmax⟩

/-- Behind `x` an error, where no hex digit follows. -/
theorem hexEscape_stuck {x : UInt8} {t : Bytes} (hdrop : source.drop p = x :: t)
    (hx : x = 'x'.toUInt8 ∨ x = 'X'.toUInt8)
    (hnone : ∀ v rest, ¬ Piece ('\\'.toUInt8 :: x :: t) v rest) :
    ∃ msg, hexEscape source p = .ok (.error msg) := by
  have hbehind := drop_succ_of_drop hdrop
  rw [hexEscape]
  split_ifs with hend
  · exact ⟨_, rfl⟩
  · cases t with
    | nil => exact absurd (List.drop_eq_nil_iff.mp hbehind) hend
    | cons d t =>
      by_cases hd : asciiIsxdigit d = true
      · obtain ⟨v, rest, hpiece⟩ := exists_hex_piece hx hd t
        exact absurd hpiece (hnone _ _)
      · rw [readByte_of_drop hbehind, Access.ok_bind, if_neg hd]
        exact ⟨_, rfl⟩

/-- The `switch`, likewise. -/
theorem decodeEscape_stuck {e : UInt8} {t : Bytes} (hdrop : source.drop p = e :: t)
    (hnone : ∀ v rest, ¬ Piece ('\\'.toUInt8 :: e :: t) v rest) :
    ∃ msg, decodeEscape source p = .ok (.error msg) := by
  cases he : letterEscape e with
  | some v => exact absurd (.letter he t) (hnone _ _)
  | none =>
    rw [decodeEscape, readByte_of_drop hdrop, Access.ok_bind, he]
    dsimp only
    by_cases hoctal : isOctalDigit e = true
    · obtain ⟨v, rest, hpiece⟩ := exists_octal_piece hoctal t
      exact absurd hpiece (hnone _ _)
    · rw [if_neg hoctal]
      by_cases hx : e = 'x'.toUInt8 ∨ e = 'X'.toUInt8
      · rw [if_pos hx]
        exact hexEscape_stuck hdrop hx hnone
      · rw [if_neg hx]
        exact ⟨_, rfl⟩

/-- **A turn ends with an error** where no piece begins. -/
theorem unescapeTurn_stuck (inPlace : Bool) {c : Cursor} (hne : c.source.drop c.p ≠ [])
    (hnone : ∀ v rest, ¬ Piece (c.source.drop c.p) v rest) :
    ∃ msg, unescapeTurn inPlace c = .ok (.inr (.error msg)) := by
  obtain ⟨ch, t, hdrop⟩ := List.exists_cons_of_ne_nil hne
  rw [hdrop] at hnone
  by_cases hch : ch = '\\'.toUInt8
  · subst hch
    cases t with
    | nil =>
      have hend : c.source.length ≤ c.p + 1 := List.drop_eq_nil_iff.mp (drop_succ_of_drop hdrop)
      refine ⟨text "String cannot end with \\", ?_⟩
      rw [unescapeTurn, if_pos (lt_length_of_drop hdrop), readByte_of_drop hdrop, Access.ok_bind,
        if_neg (by simp)]
      exact if_pos hend
    | cons e t =>
      obtain ⟨msg, hdecode⟩ := decodeEscape_stuck (drop_succ_of_drop hdrop) hnone
      refine ⟨msg, ?_⟩
      rw [unescapeTurn_backslash inPlace hdrop, hdecode]
      rfl
  · exact absurd (.plain hch t) (hnone _ _)

/-! ### A run -/

theorem Piece.length_lt {s rest : Bytes} {v : ℕ} (h : Piece s v rest) : rest.length < s.length := by
  cases h with
  | plain => exact Nat.lt_succ_self _
  | letter => exact Nat.lt_succ_of_lt (Nat.lt_succ_self _)
  | octal =>
    rw [List.length_cons, List.length_append]
    omega
  | hex =>
    rw [List.length_cons, List.length_cons, List.length_append]
    omega

/-- What cannot be taken apart has no reading. -/
theorem not_reads_of_stuck {s : Bytes} (hne : s ≠ []) (hnone : ∀ v rest, ¬ Piece s v rest)
    (vs : List ℕ) : ¬ Reads s vs := by
  intro hreads
  cases hreads with
  | nil => exact hne rfl
  | cons hpiece _ => exact hnone _ _ hpiece

/-- What is returned behind `pre`, with the first piece and without it. -/
theorem reads_behind_iff {s rest pre : Bytes} {v : ℕ} (h : Piece s v rest) (hsmall : v % 2 ^ 32 ≤ 0xff)
    (t : Bytes) :
    (∃ vs, Reads s vs ∧ (∀ v ∈ vs, v % 2 ^ 32 ≤ 0xff) ∧ t = pre ++ vs.map Nat.toUInt8) ↔
      ∃ vs, Reads rest vs ∧ (∀ v ∈ vs, v % 2 ^ 32 ≤ 0xff) ∧
        t = pre ++ [v.toUInt8] ++ vs.map Nat.toUInt8 := by
  constructor
  · rintro ⟨vs, hreads, hvs, rfl⟩
    obtain ⟨vs', rfl, hreads'⟩ := (reads_iff h vs).mp hreads
    refine ⟨vs', hreads', (List.forall_mem_cons.mp hvs).2, ?_⟩
    rw [List.append_assoc, List.singleton_append, List.map_cons]
  · rintro ⟨vs, hreads, hvs, rfl⟩
    refine ⟨v :: vs, .cons h hreads, List.forall_mem_cons.mpr ⟨hsmall, hvs⟩, ?_⟩
    rw [List.append_assoc, List.singleton_append, List.map_cons]

/-- **What the loop returns from a cursor on.** -/
theorem loop_unescapeTurn (inPlace : Bool) (n : ℕ) (c : Cursor) (hbehind : c.dest.length ≤ c.p)
    (hn : (c.source.drop c.p).length < n) :
    ∃ r, Loops.loop .stillRunning (unescapeTurn inPlace) n c = .ok r ∧
      ∀ t, r = .ok t ↔ ∃ vs, Reads (c.source.drop c.p) vs ∧ (∀ v ∈ vs, v % 2 ^ 32 ≤ 0xff) ∧
        t = c.dest ++ vs.map Nat.toUInt8 := by
  have hnot : ∀ {msg t : Bytes}, (Except.error msg : Except Bytes Bytes) ≠ .ok t := by
    intro msg t h
    cases h
  induction n generalizing c with
  | zero => omega
  | succ n ih =>
    rw [Loops.loop]
    by_cases hend : c.source.drop c.p = []
    · rw [unescapeTurn_end inPlace hend, hend]
      refine ⟨.ok c.dest, rfl, fun t => ?_⟩
      simp only [reads_nil_iff, exists_eq_left, List.map_nil, List.append_nil, Except.ok.injEq]
      exact ⟨fun h => ⟨List.forall_mem_nil _, h.symm⟩, fun h => h.2.symm⟩
    · by_cases hpiece : ∃ v rest, Piece (c.source.drop c.p) v rest
      · obtain ⟨v, rest, hpiece⟩ := hpiece
        rcases unescapeTurn_piece inPlace hbehind hpiece with
          ⟨hlarge, msg, hturn⟩ | ⟨hsmall, c', hturn, hrest, hdest, hbehind'⟩
        · rw [hturn]
          refine ⟨.error msg, rfl, fun t => iff_of_false hnot ?_⟩
          rintro ⟨vs, hreads, hvs, -⟩
          obtain ⟨vs', rfl, -⟩ := (reads_iff hpiece vs).mp hreads
          exact absurd (hvs v List.mem_cons_self) (Nat.not_le.mpr hlarge)
        · have hshorter := hpiece.length_lt
          obtain ⟨r, hloop, hr⟩ := ih c' hbehind' (by rw [hrest]; omega)
          rw [hrest, hdest] at hr
          rw [hturn]
          exact ⟨r, hloop, fun t => (hr t).trans (reads_behind_iff hpiece hsmall t).symm⟩
      · have hnone : ∀ v rest, ¬ Piece (c.source.drop c.p) v rest :=
          fun v rest h => hpiece ⟨v, rest, h⟩
        obtain ⟨msg, hturn⟩ := unescapeTurn_stuck inPlace hend hnone
        rw [hturn]
        refine ⟨.error msg, rfl, fun t => iff_of_false hnot ?_⟩
        rintro ⟨vs, hreads, -, -⟩
        exact not_reads_of_stuck hend hnone vs hreads

/-- Plain characters are read as themselves. -/
theorem reads_append {pre : Bytes} (hpre : ∀ c ∈ pre, c ≠ '\\'.toUInt8) (s : Bytes) (vs : List ℕ) :
    Reads (pre ++ s) vs ↔ ∃ vs', vs = pre.map UInt8.toNat ++ vs' ∧ Reads s vs' := by
  induction pre generalizing vs with
  | nil =>
    constructor
    · intro h
      exact ⟨vs, rfl, h⟩
    · rintro ⟨vs', rfl, h⟩
      exact h
  | cons c pre ih =>
    obtain ⟨hc, hpre⟩ := List.forall_mem_cons.mp hpre
    rw [List.cons_append, reads_iff (.plain hc _)]
    constructor
    · rintro ⟨vs', rfl, hrest⟩
      obtain ⟨vs'', rfl, hreads⟩ := (ih hpre vs').mp hrest
      exact ⟨vs'', rfl, hreads⟩
    · rintro ⟨vs', rfl, hreads⟩
      exact ⟨_, rfl, (ih hpre _).mpr ⟨vs', rfl, hreads⟩⟩

theorem plainPrefix_spec (s : Bytes) : ∀ c ∈ s.take (plainPrefix s), c ≠ '\\'.toUInt8 := by
  induction s with
  | nil => exact fun c hc => absurd hc (by simp [plainPrefix])
  | cons d s ih =>
    rw [plainPrefix]
    split_ifs with hd
    · rw [List.take_succ_cons, List.forall_mem_cons]
      exact ⟨hd, ih⟩
    · exact fun c hc => absurd hc (by simp)

theorem plainPrefix_le (s : Bytes) : plainPrefix s ≤ s.length := by
  induction s with
  | nil => exact Nat.le_refl _
  | cons d s ih =>
    rw [plainPrefix, List.length_cons]
    split_ifs
    · exact Nat.succ_le_succ ih
    · exact Nat.zero_le _

/-- **What `CUnescape` returns**, in place or not: it never reads or writes outside its buffers, and it
accepts what has a reading whose numbers are characters modulo `2 ^ 32`. -/
theorem cUnescape_spec (inPlace : Bool) (s : Bytes) :
    ∃ r, cUnescape inPlace s = .ok r ∧
      ∀ t, r = .ok t ↔ ∃ vs, Reads s vs ∧ (∀ v ∈ vs, v % 2 ^ 32 ≤ 0xff) ∧ t = vs.map Nat.toUInt8 := by
  cases inPlace with
  | false => exact loop_unescapeTurn false (s.length + 1) ⟨s, 0, []⟩ (Nat.le_refl 0) (Nat.lt_succ_self _)
  | true =>
    have hlength : (s.take (plainPrefix s)).length = plainPrefix s :=
      List.length_take_of_le (plainPrefix_le s)
    have hrest : (s.drop (plainPrefix s)).length < s.length + 1 := by
      rw [List.length_drop]
      omega
    obtain ⟨r, hloop, hr⟩ := loop_unescapeTurn true (s.length + 1)
      ⟨s, plainPrefix s, s.take (plainPrefix s)⟩ hlength.le hrest
    have hreads := reads_append (plainPrefix_spec s) (s.drop (plainPrefix s))
    rw [List.take_append_drop] at hreads
    refine ⟨r, hloop, fun t => (hr t).trans ?_⟩
    constructor
    · rintro ⟨vs, hvs, hsmall, rfl⟩
      refine ⟨_, (hreads _).mpr ⟨vs, rfl, hvs⟩, List.forall_mem_append.mpr ⟨?_, hsmall⟩, ?_⟩
      · exact List.forall_mem_map.mpr fun c _ => byte_small c
      · rw [List.map_append, map_toUInt8_toNat]
    · rintro ⟨vs, hvs, hsmall, rfl⟩
      obtain ⟨vs', rfl, hvs'⟩ := (hreads vs).mp hvs
      refine ⟨vs', hvs', (List.forall_mem_append.mp hsmall).2, ?_⟩
      rw [List.map_append, map_toUInt8_toNat]

/-! ### What is accepted -/

/-- The documented behaviour: what is accepted has a reading whose numbers are characters, and these are
returned. -/
def UnescapesAsDocumented (s : Bytes) : Prop :=
  ∀ inPlace, ∃ r, cUnescape inPlace s = .ok r ∧
    ∀ t, r = .ok t ↔ ∃ vs, Reads s vs ∧ (∀ v ∈ vs, v ≤ 0xff) ∧ t = vs.map Nat.toUInt8

/-- **Strings are unescaped as documented** unless all their numbers are characters modulo `2 ^ 32`, and
some number only so. -/
theorem cUnescape_iff (s : Bytes) : UnescapesAsDocumented s ↔
    ¬ ∃ vs, Reads s vs ∧ (∀ v ∈ vs, v % 2 ^ 32 ≤ 0xff) ∧ ∃ v ∈ vs, 2 ^ 32 ≤ v := by
  constructor
  · rintro hdocumented ⟨vs, hreads, hsmall, v, hv, hlarge⟩
    obtain ⟨r, hrun, hr⟩ := cUnescape_spec false s
    obtain ⟨r', hrun', hr'⟩ := hdocumented false
    obtain rfl := Except.ok.inj (hrun.symm.trans hrun')
    obtain ⟨vs', hreads', hsmall', -⟩ := (hr' _).mp ((hr _).mpr ⟨vs, hreads, hsmall, rfl⟩)
    obtain rfl := hreads.unique hreads'
    have := hsmall' v hv
    omega
  · intro hnone inPlace
    obtain ⟨r, hrun, hr⟩ := cUnescape_spec inPlace s
    refine ⟨r, hrun, fun t => (hr t).trans ?_⟩
    refine exists_congr fun vs => and_congr_right fun hreads => and_congr_left fun _ => ?_
    constructor
    · intro hsmall v hv
      have hlt : v < 2 ^ 32 := by
        by_contra hge
        exact hnone ⟨vs, hreads, hsmall, v, hv, Nat.not_lt.mp hge⟩
      exact Nat.mod_eq_of_lt hlt ▸ hsmall v hv
    · intro hsmall v hv
      exact (Nat.mod_le _ _).trans (hsmall v hv)

/-- `\x100000041`, which is taken for `A`. -/
theorem cUnescape_wraps : ¬ UnescapesAsDocumented
    [0x5c, 0x78, 0x31, 0x30, 0x30, 0x30, 0x30, 0x30, 0x30, 0x34, 0x31] := by
  have hreads : Reads [0x5c, 0x78, 0x31, 0x30, 0x30, 0x30, 0x30, 0x30, 0x30, 0x34, 0x31] [0x100000041] :=
    .cons (@Piece.hex 0x78 [0x31, 0x30, 0x30, 0x30, 0x30, 0x30, 0x30, 0x34, 0x31] [] (.inl rfl)
      (by simp [asciiIsxdigit_iff]) (List.cons_ne_nil _ _) (ends_nil _)) .nil
  intro hdocumented
  obtain ⟨r, hrun, hr⟩ := cUnescape_spec false
    [0x5c, 0x78, 0x31, 0x30, 0x30, 0x30, 0x30, 0x30, 0x30, 0x34, 0x31]
  obtain ⟨r', hrun', hr'⟩ := hdocumented false
  obtain rfl := Except.ok.inj (hrun.symm.trans hrun')
  obtain ⟨vs, hreads', hsmall, -⟩ := (hr' _).mp ((hr _).mpr ⟨_, hreads, by decide, rfl⟩)
  obtain rfl := hreads.unique hreads'
  exact absurd (hsmall _ List.mem_cons_self) (by decide)

end LearnNetlib.Strings
