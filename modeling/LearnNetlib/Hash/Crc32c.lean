import LearnNetlib.Hash.Crc32cTables

/-!
# `hash::Extend`, `Value`, `Mask` and `Unmask`

The portable CRC-32C of `base/hash/crc32c.cc`, which eats single bytes up to a four-byte boundary,
then four words at a time, then single words, then the remaining bytes.

* `extend` — the code, with the buffer's address `pval` a parameter;
* `extendBytes` — the plain byte-at-a-time loop through `table0` alone;
* `step1_eq_absorb` / `step4_eq_foldl` — **the tables are right**: one table step is one byte fed to
  the CRC-32C register, and the four-table step is four of them;
* `extend_eq_extendBytes` — the split into head, word and tail loops never matters;
* `extendBytes_burst_ne` — a burst of at most four bytes always changes the checksum;
* `mask`, `unmask` — with `unmask_mask` and `unmask_injective`.
-/

namespace LearnNetlib.Crc32c

open LearnNetlib.ShiftRegister

/-! ### The code -/

/-- `STEP1`. -/
def step1 (l : UInt32) (b : UInt8) : UInt32 :=
  let c := (l &&& 0xff) ^^^ b.toUInt32
  table0.getD c.toNat 0 ^^^ (l >>> 8)

/-- `STEP4`, on the four bytes at `p`. -/
def step4 (l : UInt32) (b0 b1 b2 b3 : UInt8) : UInt32 :=
  let c := l ^^^ fixed32 b0 b1 b2 b3
  table3.getD (c &&& 0xff).toNat 0 ^^^ table2.getD ((c >>> 8) &&& 0xff).toNat 0 ^^^
    table1.getD ((c >>> 16) &&& 0xff).toNat 0 ^^^ table0.getD (c >>> 24).toNat 0

/-- `STEP4` at `p`: the new register and the bytes from `p + 4` on. -/
def step4At : UInt32 × Bytes → UInt32 × Bytes
  | (l, b0 :: b1 :: b2 :: b3 :: p) => (step4 l b0 b1 b2 b3, p)
  | (l, p) => (l, p)

theorem step4At_length (s : UInt32 × Bytes) (h : 4 ≤ s.2.length) :
    (step4At s).2.length + 4 = s.2.length := by
  obtain ⟨l, p⟩ := s
  match p with
  | b0 :: b1 :: b2 :: b3 :: p => rfl
  | [] | [_] | [_, _] | [_, _, _] => simp at h

/-- `while ((e - p) >= 16) { STEP4; STEP4; STEP4; STEP4; }` -/
def words16Loop (s : UInt32 × Bytes) : UInt32 × Bytes :=
  if 16 ≤ s.2.length then words16Loop (step4At (step4At (step4At (step4At s)))) else s
termination_by s.2.length
decreasing_by
  have h1 := step4At_length s (by omega)
  have h2 := step4At_length (step4At s) (by omega)
  have h3 := step4At_length (step4At (step4At s)) (by omega)
  have h4 := step4At_length (step4At (step4At (step4At s))) (by omega)
  omega

/-- `while ((e - p) >= 4) { STEP4; }` -/
def words4Loop (s : UInt32 × Bytes) : UInt32 × Bytes :=
  if 4 ≤ s.2.length then words4Loop (step4At s) else s
termination_by s.2.length
decreasing_by
  have h1 := step4At_length s (by omega)
  omega

/-- The bytes before the first four-byte boundary `x`, none if `x` lies behind the buffer. -/
def headLength (pval size : ℕ) : ℕ :=
  let x := ((pval + 3) >>> 2) <<< 2
  if x ≤ pval + size then x - pval else 0

/-- `Extend(crc, buf, size)` for a buffer at address `pval`. -/
def extend (pval : ℕ) (crc : UInt32) (buf : Bytes) : UInt32 :=
  let l := crc ^^^ 0xffffffff
  -- Process bytes until finished or p is 4-byte aligned
  let l := (buf.take (headLength pval buf.length)).foldl step1 l
  -- Process bytes 16 at a time, then 4 at a time
  let s := words4Loop (words16Loop (l, buf.drop (headLength pval buf.length)))
  -- Process the last few bytes
  let l := s.2.foldl step1 s.1
  l ^^^ 0xffffffff

/-- `Value`. -/
def value (pval : ℕ) (data : Bytes) : UInt32 := extend pval 0 data

/-- The plain byte-at-a-time loop through `table0`. -/
def extendBytes (crc : UInt32) (buf : Bytes) : UInt32 :=
  buf.foldl step1 (crc ^^^ 0xffffffff) ^^^ 0xffffffff

/-! ### The table steps feed bytes to the register -/

theorem and_ff_toNat (x : UInt32) : (x &&& 0xff).toNat = x.toNat % 256 := by
  rw [UInt32.toNat_and]
  exact Nat.and_two_pow_sub_one_eq_mod x.toNat 8

/-- The table law at a byte boundary. -/
theorem shifts_castagnoli_split (m : ℕ) (l : BitVec 32) :
    shifts castagnoli (8 + m) l
      = shifts castagnoli (8 + m) (BitVec.ofNat 32 (l.toNat % 256))
          ^^^ shifts castagnoli m (l >>> 8) :=
  shifts_split castagnoli 8 m l

theorem step1_eq_absorb (l : UInt32) (b : UInt8) :
    (step1 l b).toBitVec = absorb castagnoli l.toBitVec b.toBitVec := by
  have hlow : (l &&& 0xff) ^^^ b.toUInt32 = (l ^^^ b.toUInt32) &&& 0xff := by
    apply UInt32.toNat_inj.mp
    rw [and_ff_toNat, UInt32.toNat_xor, UInt32.toNat_xor, and_ff_toNat, UInt8.toNat_toUInt32]
    have hb : b.toNat % 2 ^ 8 = b.toNat := Nat.mod_eq_of_lt b.toNat_lt
    have h := Nat.xor_mod_two_pow (a := l.toNat) (b := b.toNat) (n := 8)
    rw [hb] at h
    exact h.symm
  have hhigh : (l.toBitVec ^^^ b.toBitVec.setWidth 32) >>> 8 = l.toBitVec >>> 8 := by
    rw [BitVec.ushiftRight_xor_distrib]
    have hzero : b.toBitVec.setWidth 32 >>> 8 = 0#32 := by
      apply BitVec.eq_of_toNat_eq
      have hb := b.toNat_lt
      rw [BitVec.toNat_ushiftRight, byte_toNat (by decide), Nat.shiftRight_eq_div_pow]
      simp only [BitVec.toNat_ofNat]
      omega
    rw [hzero, BitVec.xor_zero]
  have hx : (l ^^^ b.toUInt32).toBitVec = l.toBitVec ^^^ b.toBitVec.setWidth 32 := rfl
  have hsplit := shifts_castagnoli_split 0 (l.toBitVec ^^^ b.toBitVec.setWidth 32)
  rw [step1, absorb]
  simp only [UInt32.toBitVec_xor, hlow, and_ff_toNat]
  rw [table0_spec _ (Nat.mod_lt _ (by decide)), hsplit, hhigh, ← hx]
  rfl

theorem foldl_step1_eq_absorbAll (l : UInt32) (buf : Bytes) :
    (buf.foldl step1 l).toBitVec = absorbAll castagnoli l.toBitVec (buf.map UInt8.toBitVec) := by
  induction buf generalizing l with
  | nil => rfl
  | cons b buf ih =>
    rw [List.foldl_cons, ih, step1_eq_absorb, List.map_cons, absorbAll_cons]

/-- Four bytes spell the word the little-endian load reads. -/
theorem fixed32_eq_pack (b0 b1 b2 b3 : UInt8) :
    (fixed32 b0 b1 b2 b3).toBitVec
      = pack 32 [b0.toBitVec, b1.toBitVec, b2.toBitVec, b3.toBitVec] := by
  have hlt : ∀ bs : List (BitVec 8), 8 * bs.length ≤ 24 → (pack 32 bs).toNat < 2 ^ (32 - 8) :=
    fun bs hbs => lt_of_lt_of_le (pack_toNat_lt bs (by omega))
      (Nat.pow_le_pow_right (by decide) hbs)
  apply BitVec.eq_of_toNat_eq
  have h0 := hlt [b1.toBitVec, b2.toBitVec, b3.toBitVec] (by simp)
  have h1 := hlt [b2.toBitVec, b3.toBitVec] (by simp)
  have h2 := hlt [b3.toBitVec] (by simp)
  have h3 := hlt [] (by simp)
  have hfix := fixed32_toNat b0 b1 b2 b3
  rw [pack, byte_xor_shift_toNat _ _ (by decide) h0, pack,
    byte_xor_shift_toNat _ _ (by decide) h1, pack, byte_xor_shift_toNat _ _ (by decide) h2, pack,
    byte_xor_shift_toNat _ _ (by decide) h3, pack]
  change (fixed32 b0 b1 b2 b3).toNat = _
  rw [hfix]
  simp only [BitVec.toNat_ofNat, UInt8.toNat_toBitVec]
  omega

/-- **The four-table step is four bytes.** -/
theorem step4_eq_foldl (l : UInt32) (b0 b1 b2 b3 : UInt8) :
    step4 l b0 b1 b2 b3 = [b0, b1, b2, b3].foldl step1 l := by
  apply UInt32.toBitVec_inj.mp
  rw [foldl_step1_eq_absorbAll,
    absorbAll_eq_shifts_pack castagnoli _ _ (by simp), step4]
  simp only [List.map_cons, List.map_nil, List.length_cons, List.length_nil]
  rw [← fixed32_eq_pack]
  generalize hc : l ^^^ fixed32 b0 b1 b2 b3 = c
  have hcv : l.toBitVec ^^^ (fixed32 b0 b1 b2 b3).toBitVec = c.toBitVec := by rw [← hc]; rfl
  have hsh : ∀ s : UInt32, s.toNat < 32 → (c >>> s).toNat = (c.toBitVec >>> s.toNat).toNat := by
    intro s hs
    rw [UInt32.toNat_shiftRight, Nat.mod_eq_of_lt hs, BitVec.toNat_ushiftRight]
    rfl
  have h8 : (c >>> 8).toNat = (c.toBitVec >>> 8).toNat := hsh 8 (by decide)
  have h16 : (c >>> 16).toNat = (c.toBitVec >>> 16).toNat := hsh 16 (by decide)
  have h24 : (c >>> 24).toNat = (c.toBitVec >>> 24).toNat := hsh 24 (by decide)
  have hsplit : shifts castagnoli (8 * 4) c.toBitVec
      = shifts castagnoli 32 (BitVec.ofNat 32 (c.toNat % 256))
        ^^^ (shifts castagnoli 24 (BitVec.ofNat 32 ((c.toBitVec >>> 8).toNat % 256))
        ^^^ (shifts castagnoli 16 (BitVec.ofNat 32 ((c.toBitVec >>> 16).toNat % 256))
        ^^^ shifts castagnoli 8 (c.toBitVec >>> 24))) := by
    have e1 := shifts_castagnoli_split 24 c.toBitVec
    have e2 := shifts_castagnoli_split 16 (c.toBitVec >>> 8)
    have e3 := shifts_castagnoli_split 8 (c.toBitVec >>> 16)
    rw [← BitVec.shiftRight_add] at e2 e3
    calc shifts castagnoli (8 * 4) c.toBitVec = _ := e1
      _ = _ := by rw [e2]
      _ = _ := by rw [e3]; rfl
  have htop : (c >>> 24).toNat < 256 := by
    have hlt := c.toNat_lt
    rw [shiftRight_toNat32 c 24 (by decide)]
    exact Nat.div_lt_of_lt_mul (by simpa using hlt)
  have hword : BitVec.ofNat 32 (c.toBitVec >>> 24).toNat = c.toBitVec >>> 24 := by
    rw [BitVec.ofNat_toNat, BitVec.setWidth_eq]
  rw [hcv, hsplit]
  simp only [UInt32.toBitVec_xor, and_ff_toNat]
  rw [table3_spec _ (Nat.mod_lt _ (by decide)), table2_spec _ (Nat.mod_lt _ (by decide)),
    table1_spec _ (Nat.mod_lt _ (by decide)), table0_spec _ htop, h8, h16, h24, hword,
    BitVec.xor_assoc, BitVec.xor_assoc]

/-! ### The loops -/

/-- The register the byte loop would reach from here, which no step changes. -/
def finalRegister (s : UInt32 × Bytes) : UInt32 := s.2.foldl step1 s.1

theorem finalRegister_step4At (s : UInt32 × Bytes) :
    finalRegister (step4At s) = finalRegister s := by
  obtain ⟨l, p⟩ := s
  match p with
  | b0 :: b1 :: b2 :: b3 :: p => simp only [finalRegister, step4At, step4_eq_foldl, List.foldl]
  | [] | [_] | [_, _] | [_, _, _] => rfl

theorem finalRegister_words16Loop (s : UInt32 × Bytes) :
    finalRegister (words16Loop s) = finalRegister s := by
  fun_induction words16Loop s with
  | case1 s h ih => simp only [ih, finalRegister_step4At]
  | case2 s h => rfl

theorem finalRegister_words4Loop (s : UInt32 × Bytes) :
    finalRegister (words4Loop s) = finalRegister s := by
  fun_induction words4Loop s with
  | case1 s h ih => rw [ih, finalRegister_step4At]
  | case2 s h => rfl

/-- **The split into loops never matters**, wherever the buffer lies. -/
theorem extend_eq_extendBytes (pval : ℕ) (crc : UInt32) (buf : Bytes) :
    extend pval crc buf = extendBytes crc buf := by
  have hloops := (finalRegister_words4Loop _).trans (finalRegister_words16Loop
    ((buf.take (headLength pval buf.length)).foldl step1 (crc ^^^ 0xffffffff),
      buf.drop (headLength pval buf.length)))
  rw [extend, extendBytes]
  change finalRegister _ ^^^ _ = _
  rw [hloops, finalRegister, ← List.foldl_append, List.take_append_drop]

theorem extendBytes_append (crc : UInt32) (as bs : Bytes) :
    extendBytes crc (as ++ bs) = extendBytes (extendBytes crc as) bs := by
  simp only [extendBytes, List.foldl_append, UInt32.xor_assoc, UInt32.xor_self, UInt32.xor_zero]

/-- **`Extend` is the plain byte loop** at every address and from every start, and therefore
composes over concatenation. -/
theorem extend_spec :
    (∀ (pval : ℕ) (crc : UInt32) (buf : Bytes), extend pval crc buf = extendBytes crc buf) ∧
    ∀ (pA pB pAB : ℕ) (crc : UInt32) (as bs : Bytes),
      extend pB (extend pA crc as) bs = extend pAB crc (as ++ bs) := by
  refine ⟨extend_eq_extendBytes, ?_⟩
  intro pA pB pAB crc as bs
  rw [extend_eq_extendBytes, extend_eq_extendBytes, extend_eq_extendBytes, extendBytes_append]

/-- The first vector of the unit test, through the byte loop. -/
example : extendBytes 0 (List.replicate 32 0) = 0x8a9136aa := by decide +kernel

/-! ### Bursts -/

theorem castagnoli_msb : castagnoli.msb = true := by decide

/-- **A burst of at most four bytes always changes the checksum.** -/
theorem extendBytes_burst_ne (crc : UInt32) (pre as bs post : Bytes)
    (hlen : as.length = bs.length) (h4 : as.length ≤ 4) (hne : as ≠ bs) :
    extendBytes crc (pre ++ as ++ post) ≠ extendBytes crc (pre ++ bs ++ post) := by
  intro h
  have hreg := congrArg UInt32.toBitVec ((UInt32.xor_left_inj _).mp h)
  rw [foldl_step1_eq_absorbAll, foldl_step1_eq_absorbAll] at hreg
  simp only [List.map_append] at hreg
  refine absorbAll_burst_ne castagnoli _ castagnoli_msb _ _ _ _ (by simpa using hlen)
    (by rw [List.length_map]; omega) ?_ hreg
  intro hmap
  exact hne (List.map_injective_iff.mpr (fun x y hxy => UInt8.toBitVec_inj.mp hxy) hmap)

/-! ### Masking -/

def maskDelta : UInt32 := 0xa282ead8

/-- `Mask`: rotate right by 15 bits and add a constant. -/
def mask (crc : UInt32) : UInt32 := ((crc >>> 15) ||| (crc <<< 17)) + maskDelta

/-- `Unmask`. -/
def unmask (maskedCrc : UInt32) : UInt32 :=
  let rot := maskedCrc - maskDelta
  (rot >>> 17) ||| (rot <<< 15)

/-- A rotation by `r`, on numbers. -/
theorem rotate_toNat (x : UInt32) (r s : UInt32) (hr : r.toNat + s.toNat = 32)
    (hr0 : 0 < r.toNat) (hs0 : 0 < s.toNat) :
    ((x >>> r) ||| (x <<< s)).toNat
      = x.toNat / 2 ^ r.toNat + x.toNat % 2 ^ r.toNat * 2 ^ s.toNat := by
  have hx := x.toNat_lt
  have hpow : 2 ^ r.toNat * 2 ^ s.toNat = 2 ^ 32 := by rw [← Nat.pow_add, hr]
  have hlow : x.toNat / 2 ^ r.toNat < 2 ^ s.toNat :=
    Nat.div_lt_of_lt_mul (by rw [hpow]; exact hx)
  have hhigh : x.toNat * 2 ^ s.toNat % 2 ^ 32 = x.toNat % 2 ^ r.toNat * 2 ^ s.toNat := by
    rw [← hpow, Nat.mul_mod_mul_right]
  rw [UInt32.toNat_or, UInt32.toNat_shiftRight, UInt32.toNat_shiftLeft,
    Nat.mod_eq_of_lt (show r.toNat < 32 by omega), Nat.mod_eq_of_lt (show s.toNat < 32 by omega),
    Nat.shiftRight_eq_div_pow, Nat.shiftLeft_eq, hhigh, ← Nat.shiftLeft_eq,
    or_shiftLeft_toNat _ _ _ hlow, Nat.shiftLeft_eq]

/-- **Round trip** of the mask. -/
theorem unmask_mask (crc : UInt32) : unmask (mask crc) = crc := by
  have hcrc := crc.toNat_lt
  rw [unmask, mask, UInt32.add_sub_cancel]
  apply UInt32.toNat_inj.mp
  rw [rotate_toNat _ 17 15 (by decide) (by decide) (by decide),
    rotate_toNat _ 15 17 (by decide) (by decide) (by decide)]
  rw [show (15 : UInt32).toNat = 15 from rfl, show (17 : UInt32).toNat = 17 from rfl]
  omega

theorem unmask_injective : Function.Injective unmask := by
  intro a b h
  have hrot : a - maskDelta = b - maskDelta := by
    have ha := (a - maskDelta).toNat_lt
    have hb := (b - maskDelta).toNat_lt
    have hnat := congrArg UInt32.toNat h
    rw [unmask, unmask, rotate_toNat _ 17 15 (by decide) (by decide) (by decide),
      rotate_toNat _ 17 15 (by decide) (by decide) (by decide),
      show (15 : UInt32).toNat = 15 from rfl, show (17 : UInt32).toNat = 17 from rfl] at hnat
    apply UInt32.toNat_inj.mp
    omega
  calc a = a - maskDelta + maskDelta := (UInt32.sub_add_cancel a maskDelta).symm
    _ = b := by rw [hrot, UInt32.sub_add_cancel]

end LearnNetlib.Crc32c
