import LearnNetlib.Base.CType
import LearnNetlib.Strings.Unescape

/-!
# `CEscape`

* `cEscape` — the code;
* `piece_escapeByte` — what is written for a byte is one piece that spells it, whatever follows;
* `isprint_escapeByte` — and it is printable;
* **`cUnescape_cEscape`** — the round trip.
-/

namespace LearnNetlib.Strings

/-! ### The code -/

/-- `hex_char`. -/
def hexChar : Bytes := text "0123456789abcdef"

/-- `hex_char[n]`. -/
def hexCharAt (n : UInt8) : UInt8 := hexChar.getD n.toNat 0

/-- The cases of the `switch`. -/
def escapeByte (c : UInt8) : Bytes :=
  if c = '\n'.toUInt8 then text "\\n"
  else if c = '\r'.toUInt8 then text "\\r"
  else if c = '\t'.toUInt8 then text "\\t"
  else if c = '"'.toUInt8 then text "\\\""
  else if c = '\''.toUInt8 then text "\\'"
  else if c = '\\'.toUInt8 then text "\\\\"
  else if 0x80 ≤ c ∨ CType.isprint c = false then
    -- If `\xNN` were written, a hex digit that follows would have to be escaped too.
    ['\\'.toUInt8, hexCharAt (c / 64), hexCharAt (c % 64 / 8), hexCharAt (c % 8)]
  else [c]

/-- `CEscape`. -/
def cEscape (src : Bytes) : Bytes := src.flatMap escapeByte

/-! ### One byte -/

/-- The first eight of `hex_char` are the octal digits. -/
theorem hexCharAt_octal : ∀ n < 8, isOctalDigit (hexCharAt (UInt8.ofNat n)) = true ∧
    octalDigit (hexCharAt (UInt8.ofNat n)) = n ∧ CType.isprint (hexCharAt (UInt8.ofNat n)) = true := by
  decide

theorem hexCharAt_spec {n : UInt8} (hn : n.toNat < 8) : isOctalDigit (hexCharAt n) = true ∧
    octalDigit (hexCharAt n) = n.toNat ∧ CType.isprint (hexCharAt n) = true := by
  have hspec := hexCharAt_octal n.toNat hn
  rwa [UInt8.ofNat_toNat] at hspec

/-- The three digits of a byte. -/
theorem digits_lt (c : UInt8) : (c / 64).toNat < 8 ∧ (c % 64 / 8).toNat < 8 ∧ (c % 8).toNat < 8 := by
  have hc := c.toNat_lt
  rw [UInt8.toNat_div, UInt8.toNat_div, UInt8.toNat_mod, UInt8.toNat_mod]
  show c.toNat / 64 < 8 ∧ c.toNat % 64 / 8 < 8 ∧ c.toNat % 8 < 8
  omega

theorem value_digits (c : UInt8) :
    Numeral.value 8 [(c / 64).toNat, (c % 64 / 8).toNat, (c % 8).toNat] = c.toNat := by
  rw [UInt8.toNat_div, UInt8.toNat_div, UInt8.toNat_mod, UInt8.toNat_mod]
  show ((0 * 8 + c.toNat / 64) * 8 + c.toNat % 64 / 8) * 8 + c.toNat % 8 = c.toNat
  omega

/-- **What is written for a byte spells it**: escapes have a letter or all three digits. -/
theorem piece_escapeByte (c : UInt8) (rest : Bytes) : Piece (escapeByte c ++ rest) c.toNat rest := by
  rw [escapeByte]
  split_ifs with hn hr ht hquote htick hback hoctal
  · exact hn ▸ .letter (by decide) rest
  · exact hr ▸ .letter (by decide) rest
  · exact ht ▸ .letter (by decide) rest
  · exact hquote ▸ .letter (by decide) rest
  · exact htick ▸ .letter (by decide) rest
  · exact hback ▸ .letter (by decide) rest
  · obtain ⟨hfirst, hsecond, hthird⟩ := digits_lt c
    obtain ⟨h₁, hv₁, -⟩ := hexCharAt_spec hfirst
    obtain ⟨h₂, hv₂, -⟩ := hexCharAt_spec hsecond
    obtain ⟨h₃, hv₃, -⟩ := hexCharAt_spec hthird
    have hpiece : Piece _ _ rest := .octal (List.forall_mem_cons.mpr ⟨h₁, List.forall_mem_cons.mpr
      ⟨h₂, List.forall_mem_singleton.mpr h₃⟩⟩) (List.cons_ne_nil _ _) (Nat.le_refl 3) (.inl rfl)
    rw [List.map_cons, List.map_cons, List.map_singleton, hv₁, hv₂, hv₃, value_digits] at hpiece
    exact hpiece
  · exact .plain hback rest

theorem isprint_escapeByte (c : UInt8) : ∀ x ∈ escapeByte c, CType.isprint x = true := by
  have hbackslash : CType.isprint '\\'.toUInt8 = true := by decide
  rw [escapeByte]
  split_ifs with hn hr ht hquote htick hback hoctal
  · exact List.all_eq_true.mp (by decide)
  · exact List.all_eq_true.mp (by decide)
  · exact List.all_eq_true.mp (by decide)
  · exact List.all_eq_true.mp (by decide)
  · exact List.all_eq_true.mp (by decide)
  · exact List.all_eq_true.mp (by decide)
  · obtain ⟨hfirst, hsecond, hthird⟩ := digits_lt c
    rw [List.forall_mem_cons, List.forall_mem_cons, List.forall_mem_cons, List.forall_mem_singleton]
    exact ⟨hbackslash, (hexCharAt_spec hfirst).2.2, (hexCharAt_spec hsecond).2.2, (hexCharAt_spec hthird).2.2⟩
  · rw [List.forall_mem_singleton]
    exact Bool.of_not_eq_false (not_or.mp hoctal).2

/-! ### All bytes -/

theorem reads_cEscape (s : Bytes) : Reads (cEscape s) (s.map UInt8.toNat) := by
  induction s with
  | nil => exact .nil
  | cons c s ih => exact .cons (piece_escapeByte c (cEscape s)) ih

/-- **What is escaped is unescaped again**, and is printable. -/
theorem cUnescape_cEscape (s : Bytes) :
    (∀ inPlace, cUnescape inPlace (cEscape s) = .ok (.ok s)) ∧
    ∀ c ∈ cEscape s, CType.isprint c = true := by
  constructor
  · intro inPlace
    obtain ⟨r, hrun, hr⟩ := cUnescape_spec inPlace (cEscape s)
    rw [hrun, (hr s).mpr ⟨_, reads_cEscape s, List.forall_mem_map.mpr fun c _ => byte_small c,
      (map_toUInt8_toNat s).symm⟩]
  · intro x hx
    obtain ⟨c, -, hx⟩ := List.mem_flatMap.mp hx
    exact isprint_escapeByte c x hx

end LearnNetlib.Strings
