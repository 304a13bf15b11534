import LearnNetlib.Foundations.PackedBits
import LearnNetlib.Foundations.Runs
import Mathlib.Data.Finset.Basic

/-!
# `Bitmap`

Bits in words of 32, and the search for the first that is clear.

* `numWords`, `reset`, `get`, `set`, `clear`, `firstUnset`, `toString` — the code of `base/bitmap.cc` and
  `base/bitmap.h`; an access outside of `word_` has no result;
* `specStep`, `Shows` — a length and a set of indices, and the bitmap that shows them;
* `findFirstSet_spec`, `firstUnset_spec` — the search by bytes, and by words;
* `Holds`, `step_holds` — the words and the set, and what an operation does to both;
* **`bitmap_shows_iff`** — the bitmap shows the set all the time, unless a length cannot be rounded up to
  words.
-/

namespace LearnNetlib.Bitmaps

open PackedBits Runs

/-! ### The code -/

abbrev Word := BitVec 32

inductive Failure
  | outOfBounds
  deriving Repr, DecidableEq

/-- `NumWords`. -/
def numWords (n : UInt64) : ℕ := ((n + 32 - 1) / 32).toNat

/-- `Mask`. -/
def mask (i : ℕ) : Word := (1#64 <<< i).setWidth 32

/-- `Bitmap`. -/
structure Bitmap where
  nbits : UInt64
  word : List Word

/-- `kLowestBitSet`. -/
def kLowestBitSet : List ℕ :=
  [0, 1, 2, 1, 3, 1, 2, 1, 4, 1, 2, 1, 3, 1, 2, 1,
    5, 1, 2, 1, 3, 1, 2, 1, 4, 1, 2, 1, 3, 1, 2, 1,
    6, 1, 2, 1, 3, 1, 2, 1, 4, 1, 2, 1, 3, 1, 2, 1,
    5, 1, 2, 1, 3, 1, 2, 1, 4, 1, 2, 1, 3, 1, 2, 1,
    7, 1, 2, 1, 3, 1, 2, 1, 4, 1, 2, 1, 3, 1, 2, 1,
    5, 1, 2, 1, 3, 1, 2, 1, 4, 1, 2, 1, 3, 1, 2, 1,
    6, 1, 2, 1, 3, 1, 2, 1, 4, 1, 2, 1, 3, 1, 2, 1,
    5, 1, 2, 1, 3, 1, 2, 1, 4, 1, 2, 1, 3, 1, 2, 1,
    8, 1, 2, 1, 3, 1, 2, 1, 4, 1, 2, 1, 3, 1, 2, 1,
    5, 1, 2, 1, 3, 1, 2, 1, 4, 1, 2, 1, 3, 1, 2, 1,
    6, 1, 2, 1, 3, 1, 2, 1, 4, 1, 2, 1, 3, 1, 2, 1,
    5, 1, 2, 1, 3, 1, 2, 1, 4, 1, 2, 1, 3, 1, 2, 1,
    7, 1, 2, 1, 3, 1, 2, 1, 4, 1, 2, 1, 3, 1, 2, 1,
    5, 1, 2, 1, 3, 1, 2, 1, 4, 1, 2, 1, 3, 1, 2, 1,
    6, 1, 2, 1, 3, 1, 2, 1, 4, 1, 2, 1, 3, 1, 2, 1,
    5, 1, 2, 1, 3, 1, 2, 1, 4, 1, 2, 1, 3, 1, 2, 1]

/-- `FindFirstSet`. -/
def findFirstSet (w : Word) : ℕ :=
  if w &&& 0xff ≠ 0 then kLowestBitSet.getD (w &&& 0xff).toNat 0
  else if (w >>> 8) &&& 0xff ≠ 0 then kLowestBitSet.getD ((w >>> 8) &&& 0xff).toNat 0 + 8
  else if (w >>> 16) &&& 0xff ≠ 0 then kLowestBitSet.getD ((w >>> 16) &&& 0xff).toNat 0 + 16
  else if (w >>> 24) &&& 0xff ≠ 0 then kLowestBitSet.getD ((w >>> 24) &&& 0xff).toNat 0 + 24
  else 0

namespace Bitmap

/-- `Bitmap()`. -/
def new : Bitmap := ⟨0, []⟩

variable (b : Bitmap)

/-- `bits`. -/
def bits : ℕ := b.nbits.toNat

/-- `word_[k]`. -/
def wordAt (k : ℕ) : Except Failure Word :=
  match b.word[k]? with
  | none => .error .outOfBounds
  | some w => .ok w

/-- `Reset`; `junk` is what new memory holds. -/
def reset (junk : ℕ → Word) (n : UInt64) : Except Failure Bitmap :=
  let numWords := numWords n
  let word :=
    if numWords ≠ Bitmaps.numWords b.nbits then (List.range numWords).map junk else b.word
  if word.length < numWords then .error .outOfBounds
  else .ok ⟨n, List.replicate numWords 0 ++ word.drop numWords⟩

/-- `get`. -/
def get (i : ℕ) : Except Failure Bool := do
  let w ← b.wordAt (i / 32)
  return w &&& mask (i % 32) ≠ 0

/-- `set`. -/
def set (i : ℕ) : Except Failure Bitmap := do
  let w ← b.wordAt (i / 32)
  return { b with word := b.word.set (i / 32) (w ||| mask (i % 32)) }

/-- `clear`. -/
def clear (i : ℕ) : Except Failure Bitmap := do
  let w ← b.wordAt (i / 32)
  return { b with word := b.word.set (i / 32) (w &&& ~~~mask (i % 32)) }

/-- The loop of `FirstUnset`: `n` more words, from `word_[i]` on. -/
def firstUnsetLoop : ℕ → ℕ → BitVec 64 → Except Failure ℕ
  | 0, _, _ => .ok b.bits
  | n + 1, i, skip => do
    let w ← b.wordAt i
    let word : Word := (w.setWidth 64 ||| skip).setWidth 32
    let r := findFirstSet (~~~word)
    if r ≠ 0 then
      let result := i * 32 + (r - 1)
      return if result > b.bits then b.bits else result
    else firstUnsetLoop n (i + 1) 0

/-- `FirstUnset`. -/
def firstUnset (start : ℕ) : Except Failure ℕ :=
  if start ≥ b.bits then .ok b.bits
  else b.firstUnsetLoop (numWords b.nbits - start / 32) (start / 32) ((1#64 <<< (start % 32)) - 1)

/-- `ToString`. -/
def toString : Except Failure (List Char) :=
  (List.range b.bits).mapM fun i => do return if ← b.get i then '1' else '0'

end Bitmap

/-! ### What it is for -/

/-- What is done to a bitmap. -/
inductive Op
  | reset (n : UInt64)
  | set (i : ℕ)
  | clear (i : ℕ)
  deriving Repr, DecidableEq

/-- An operation of the code. -/
def step (junk : ℕ → Word) (b : Bitmap) : Op → Except Failure (Unit × Bitmap)
  | .reset n => (b.reset junk n).map ((), ·)
  | .set i => (b.set i).map ((), ·)
  | .clear i => (b.clear i).map ((), ·)

/-- The same for a length and a set of indices. -/
def specStep (t : ℕ × Finset ℕ) : Op → Unit × (ℕ × Finset ℕ)
  | .reset n => ((), n.toNat, ∅)
  | .set i => ((), t.1, insert i t.2)
  | .clear i => ((), t.1, t.2.erase i)

/-- The indices are below `bits()`. -/
def Op.InRange (t : ℕ × Finset ℕ) : Op → Prop
  | .reset _ => True
  | .set i => i < t.1
  | .clear i => i < t.1

/-- The length and the set, after operations on a bitmap of no bits. -/
def model (ops : List Op) : ℕ × Finset ℕ := (specRun specStep (0, ∅) ops).2

/-- The bitmap shows a length and a set of indices. -/
structure Shows (b : Bitmap) (t : ℕ × Finset ℕ) : Prop where
  bits : b.bits = t.1
  get : ∀ i < t.1, b.get i = .ok (decide (i ∈ t.2))
  firstUnset : ∀ start, ∃ r, b.firstUnset start = .ok r ∧ IsFirst (· ∉ t.2) start t.1 r
  toString : b.toString = .ok ((List.range t.1).map fun i => if i ∈ t.2 then '1' else '0')

/-- It does so all the time. -/
def AlwaysShows (junk : ℕ → Word) (ops : List Op) : Prop :=
  ∀ done, done <+: ops → ∃ os b, run (step junk) .new done = .ok (os, b) ∧ Shows b (model done)

/-- The length can be rounded up to words. -/
def Op.Fits : Op → Prop
  | .reset n => n.toNat + 31 < 2 ^ 64
  | _ => True

/-! ### The first bit of a word -/

section Word

variable {v : Word}

theorem kLowestBitSet_spec : ∀ c < 256, c ≠ 0 →
    ∃ k < 8, kLowestBitSet.getD c 0 = k + 1 ∧ c.testBit k = true ∧ ∀ j < k, c.testBit j = false := by
  decide +kernel

theorem testBit_byte (s t : ℕ) :
    ((v >>> s) &&& 0xff).toNat.testBit t = (v.getLsbD (s + t) && decide (t < 8)) := by
  have hlow : (0xff : Word).toNat = 2 ^ 8 - 1 := rfl
  rw [BitVec.toNat_and, Nat.testBit_and, hlow, Nat.testBit_two_pow_sub_one, BitVec.testBit_toNat,
    BitVec.getLsbD_ushiftRight]

/-- One branch: a byte, and the bytes above it. -/
theorem exists_isFirst_byte {s r e : ℕ} (hs : s + 8 ≤ 32)
    (hrest : IsFirst (v.getLsbD · = true) (s + 8) 32 r) (he : e = if r < 32 then r + 1 else 0) :
    ∃ r', IsFirst (v.getLsbD · = true) s 32 r' ∧
      (if (v >>> s) &&& 0xff ≠ 0 then kLowestBitSet.getD ((v >>> s) &&& 0xff).toNat 0 + s else e) =
        if r' < 32 then r' + 1 else 0 := by
  have hbit (t : ℕ) (ht : s ≤ t) (ht' : t < s + 8) :
      ((v >>> s) &&& 0xff).toNat.testBit (t - s) = v.getLsbD t := by
    rw [testBit_byte, Nat.add_sub_cancel' ht, decide_eq_true (by omega), Bool.and_true]
  by_cases hzero : (v >>> s) &&& 0xff = 0
  · rw [if_neg (not_not.mpr hzero)]
    refine ⟨r, hrest.skip (fun i hi hi' => ?_) (by omega), he⟩
    rw [← hbit i hi hi', hzero]
    simp
  · rw [if_pos hzero]
    have hne : ((v >>> s) &&& 0xff).toNat ≠ 0 := fun h => hzero (BitVec.eq_of_toNat_eq h)
    have hlt : ((v >>> s) &&& 0xff).toNat < 256 := by
      rw [BitVec.toNat_and]
      exact Nat.and_lt_two_pow _ (n := 8) (by decide)
    obtain ⟨k, hk, htable, hset, hclear⟩ := kLowestBitSet_spec _ hlt hne
    refine ⟨s + k, ⟨.inl ⟨by omega, by omega, ?_⟩, fun i hi hik => ?_⟩, ?_⟩
    · show v.getLsbD (s + k) = true
      rw [← hbit (s + k) (by omega) (by omega), Nat.add_sub_cancel_left, hset]
    · show ¬ v.getLsbD i = true
      rw [← hbit i hi (by omega), hclear (i - s) (by omega)]
      exact Bool.false_ne_true
    · rw [htable, if_pos (by omega)]
      omega

theorem findFirstSet_spec (v : Word) :
    ∃ r, IsFirst (v.getLsbD · = true) 0 32 r ∧ findFirstSet v = if r < 32 then r + 1 else 0 := by
  have hnone : IsFirst (v.getLsbD · = true) 32 32 32 := .none fun i hi hi' => absurd hi' hi.not_gt
  obtain ⟨r₃, h₃, e₃⟩ := exists_isFirst_byte (s := 24) (by decide) hnone (e := 0) rfl
  obtain ⟨r₂, h₂, e₂⟩ := exists_isFirst_byte (s := 16) (by decide) h₃ e₃
  obtain ⟨r₁, h₁, e₁⟩ := exists_isFirst_byte (s := 8) (by decide) h₂ e₂
  obtain ⟨r₀, h₀, e₀⟩ := exists_isFirst_byte (s := 0) (by decide) h₁ e₁
  refine ⟨r₀, h₀, ?_⟩
  rw [BitVec.ushiftRight_zero, Nat.add_zero] at e₀
  exact e₀

theorem mask_eq {t : ℕ} (ht : t < 32) : mask t = BitVec.twoPow 32 t := by
  refine BitVec.eq_of_getLsbD_eq fun i hi => ?_
  rw [mask, BitVec.getLsbD_setWidth, BitVec.getLsbD_shiftLeft, BitVec.getLsbD_one, BitVec.getLsbD_twoPow]
  have h64 : i < 64 := by omega
  by_cases h : t = i
  · simp [h, hi, h64]
  · simp only [hi, h64, ht, h, decide_true, decide_false, Bool.true_and, Bool.and_false]
    simp
    omega

/-- The mask of the first word clears the bits below `s`. -/
theorem getLsbD_skip {s t : ℕ} (hs : s < 32) (ht : t < 32) :
    ((v.setWidth 64 ||| ((1#64 <<< s) - 1)).setWidth 32).getLsbD t = (v.getLsbD t || decide (t < s)) := by
  have hpow : 2 ^ s < 2 ^ 64 := Nat.pow_lt_pow_right (by decide) (by omega)
  have hone : 1 ≤ 2 ^ s := Nat.one_le_two_pow
  have hmask : ((1#64 <<< s) - 1).toNat = 2 ^ s - 1 := by
    have hwrap : (1#64).toNat = 1 := rfl
    have hwrap' : (1 : BitVec 64).toNat = 1 := rfl
    rw [BitVec.toNat_sub, BitVec.toNat_shiftLeft, Nat.shiftLeft_eq, hwrap, hwrap', one_mul,
      Nat.mod_eq_of_lt hpow]
    omega
  have hlow : ((1#64 <<< s) - 1).getLsbD t = decide (t < s) := by
    rw [← BitVec.testBit_toNat, hmask, Nat.testBit_two_pow_sub_one]
  have h64 : t < 64 := by omega
  rw [BitVec.getLsbD_setWidth, BitVec.getLsbD_or, BitVec.getLsbD_setWidth, hlow]
  simp [ht, h64]

end Word

/-! ### The words and the set -/

/-- The words hold a set of indices, and there are enough of them. -/
structure Holds (b : Bitmap) (t : ℕ × Finset ℕ) : Prop where
  bits : b.bits = t.1
  room : t.1 ≤ b.word.length * 32
  length : b.word.length = numWords b.nbits
  bit : ∀ i, bit b.word i = decide (i ∈ t.2)

section Holds

variable {b : Bitmap}

theorem wordAt_of_lt {k : ℕ} (hk : k < b.word.length) : b.wordAt k = .ok (b.word.getD k 0) := by
  rw [Bitmap.wordAt, List.getElem?_eq_getElem hk, List.getD_eq_getElem _ _ hk]

theorem get_of_lt {i : ℕ} (hi : i / 32 < b.word.length) : b.get i = .ok (bit b.word i) := by
  have hmod : i % 32 < 32 := Nat.mod_lt i (by decide)
  rw [Bitmap.get, wordAt_of_lt hi, mask_eq hmod]
  simp only [bind, Except.bind, pure, Except.pure, and_twoPow_ne_zero hmod]
  rw [Bool.decide_eq_true]
  rfl

/-- The search, from bit `s` of word `i` on. -/
theorem firstUnsetLoop_spec (hroom : b.bits ≤ b.word.length * 32) {n i s : ℕ}
    (hn : i + n = b.word.length) (hs : s < 32) :
    ∃ r, b.firstUnsetLoop n i ((1#64 <<< s) - 1) = .ok r ∧
      IsFirst (fun j => bit b.word j = false) (i * 32 + s) b.bits r := by
  induction n generalizing i s with
  | zero =>
    refine ⟨b.bits, rfl, .none fun j hj hj' => ?_⟩
    rw [Nat.add_zero] at hn
    omega
  | succ n ih =>
    rw [Bitmap.firstUnsetLoop, wordAt_of_lt (by omega)]
    simp only [bind, Except.bind, pure, Except.pure]
    obtain ⟨r, hr, hres⟩ := findFirstSet_spec
      (~~~(((b.word.getD i 0).setWidth 64 ||| ((1#64 <<< s) - 1)).setWidth 32))
    have hclear (t : ℕ) (ht : t < 32) :
        (~~~(((b.word.getD i 0).setWidth 64 ||| ((1#64 <<< s) - 1)).setWidth 32)).getLsbD t = true ↔
          bit b.word (i * 32 + t) = false ∧ s ≤ t := by
      rw [BitVec.getLsbD_not, getLsbD_skip hs ht, bit_mul_add _ ht]
      simp [ht]
    have hbelow (j : ℕ) (hj : i * 32 + s ≤ j) (hj' : j < i * 32 + r) (hr32 : r ≤ 32) :
        ¬ bit b.word j = false := by
      intro hbit
      refine hr.2 (j - i * 32) (Nat.zero_le _) (by omega) ((hclear _ (by omega)).mpr ⟨?_, by omega⟩)
      rwa [Nat.add_sub_cancel' (by omega)]
    rw [hres]
    rcases hr.1 with ⟨-, hlt, hset⟩ | rfl
    · have hfound := (hclear r hlt).mp hset
      rw [if_pos hlt, if_pos (Nat.succ_ne_zero r), Nat.add_sub_cancel]
      exact ⟨_, rfl, .found (by omega) hfound.1 fun j hj hj' => hbelow j hj hj' hlt.le⟩
    · rw [if_neg (lt_irrefl 32), if_neg (not_not.mpr rfl)]
      obtain ⟨r, hloop, hr'⟩ := ih (i := i + 1) (s := 0) (by omega) (by decide)
      refine ⟨r, hloop, hr'.skip (fun j hj hj' => hbelow j hj (by omega) le_rfl) (by omega)⟩

theorem firstUnset_spec (hroom : b.bits ≤ b.word.length * 32)
    (hlength : b.word.length = numWords b.nbits) (start : ℕ) :
    ∃ r, b.firstUnset start = .ok r ∧ IsFirst (fun j => bit b.word j = false) start b.bits r := by
  rw [Bitmap.firstUnset]
  split_ifs with h
  · exact ⟨b.bits, rfl, .none fun j hj hj' => absurd (h.trans hj) hj'.not_ge⟩
  · obtain ⟨r, hloop, hr⟩ := firstUnsetLoop_spec hroom (n := numWords b.nbits - start / 32)
      (i := start / 32) (s := start % 32) (by omega) (Nat.mod_lt _ (by decide))
    rw [Nat.div_add_mod'] at hr
    exact ⟨r, hloop, hr⟩

/-- Words that hold a set show it. -/
theorem Holds.shows {t : ℕ × Finset ℕ} (h : Holds b t) : Shows b t := by
  have hget : ∀ i < t.1, b.get i = .ok (decide (i ∈ t.2)) := by
    intro i hi
    have hroom := h.room
    rw [get_of_lt (by omega), h.bit]
  refine ⟨h.bits, hget, fun start => ?_, ?_⟩
  · obtain ⟨r, hr, hfirst⟩ := firstUnset_spec (h.bits.le.trans h.room) h.length start
    simp only [h.bit, decide_eq_false_iff_not, h.bits] at hfirst
    exact ⟨r, hr, hfirst⟩
  · have hmap : ∀ l : List ℕ, (∀ i ∈ l, i < t.1) →
        (l.mapM fun i => do return if ← b.get i then '1' else '0') =
          (.ok (l.map fun i => if i ∈ t.2 then '1' else '0') : Except Failure (List Char)) := by
      intro l hl
      induction l with
      | nil => rfl
      | cons i l ih =>
        rw [List.forall_mem_cons] at hl
        rw [List.mapM_cons, ih hl.2, hget i hl.1]
        simp [bind, Except.bind, pure, Except.pure]
    rw [Bitmap.toString, h.bits]
    exact hmap _ fun i hi => List.mem_range.mp hi

end Holds

/-! ### Operations -/

theorem numWords_eq (n : UInt64) :
    numWords n = if n.toNat + 31 < 2 ^ 64 then (n.toNat + 31) / 32 else 0 := by
  have hlt := n.toNat_lt
  rw [numWords, UInt64.toNat_div, UInt64.toNat_sub, UInt64.toNat_add]
  simp only [UInt64.reduceToNat]
  split_ifs with h <;> omega

section Step

variable {junk : ℕ → Word} {b b' : Bitmap} {t : ℕ × Finset ℕ}

theorem reset_eq (hlength : b.word.length = numWords b.nbits) (n : UInt64) :
    b.reset junk n = .ok ⟨n, List.replicate (numWords n) 0⟩ := by
  rw [Bitmap.reset]
  have hword : (if numWords n ≠ numWords b.nbits then (List.range (numWords n)).map junk
      else b.word).length = numWords n := by
    split_ifs with h
    · rw [List.length_map, List.length_range]
    · rw [hlength, not_not.mp h]
  rw [if_neg (by rw [hword]; exact lt_irrefl _), List.drop_eq_nil_of_le hword.le, List.append_nil]

/-- `set` and `clear` write one word, and there are as many after. -/
theorem length_of_write {f : Word → Word} {k : ℕ} {o : Unit} (hlength : b.word.length = numWords b.nbits)
    (h : Except.map ((), ·) (do
      let w ← b.wordAt k
      return { b with word := b.word.set k (f w) }) = .ok (o, b')) :
    b'.word.length = numWords b'.nbits := by
  cases hword : b.wordAt k with
  | error e =>
    rw [hword] at h
    cases h
  | ok w =>
    rw [hword] at h
    cases h
    exact (List.length_set ..).trans hlength

/-- The words are as many as the length asks for, whatever it is. -/
theorem step_length {op : Op} {o : Unit} (hlength : b.word.length = numWords b.nbits)
    (h : step junk b op = .ok (o, b')) : b'.word.length = numWords b'.nbits := by
  cases op with
  | reset n =>
    rw [step, reset_eq hlength] at h
    cases h
    exact List.length_replicate
  | set i => exact length_of_write hlength h
  | clear i => exact length_of_write hlength h

/-- A word is written, and the words hold the set that its bits show. -/
theorem Holds.write (h : Holds b t) {s : Finset ℕ} {k : ℕ} {w : Word}
    (hbit : ∀ j, PackedBits.bit (b.word.set k w) j = decide (j ∈ s)) :
    Holds { b with word := b.word.set k w } (t.1, s) where
  bits := h.bits
  room := (List.length_set ..).symm ▸ h.room
  length := (List.length_set ..).trans h.length
  bit := hbit

/-- An index below `bits()` is in a word. -/
theorem Holds.div_lt (h : Holds b t) {i : ℕ} (hi : i < t.1) : i / 32 < b.word.length := by
  have hroom := h.room
  omega

/-- What an operation does to the words it does to the set. -/
theorem step_holds (h : Holds b t) {op : Op} (hop : op.InRange t ∧ op.Fits) :
    ∃ b', step junk b op = .ok ((specStep t op).1, b') ∧ Holds b' (specStep t op).2 := by
  cases op with
  | reset n =>
    rw [step, reset_eq h.length]
    have hfits : n.toNat + 31 < 2 ^ 64 := hop.2
    have hn : numWords n = (n.toNat + 31) / 32 := by rw [numWords_eq, if_pos hfits]
    refine ⟨_, rfl, rfl, ?_, List.length_replicate, fun i => ?_⟩
    · rw [List.length_replicate, hn]
      show n.toNat ≤ _
      omega
    · rw [bit_replicate]
      rfl
  | set i =>
    have hi := h.div_lt hop.1
    rw [step, Bitmap.set, wordAt_of_lt hi, mask_eq (Nat.mod_lt i (by decide))]
    refine ⟨_, rfl, h.write fun j => ?_⟩
    rw [bit_set_or _ (by decide) hi, h.bit]
    simp
  | clear i =>
    have hi := h.div_lt hop.1
    rw [step, Bitmap.clear, wordAt_of_lt hi, mask_eq (Nat.mod_lt i (by decide))]
    refine ⟨_, rfl, h.write fun j => ?_⟩
    rw [bit_set_andNot _ (by decide) hi, h.bit]
    simp

end Step

theorem new_holds : Holds .new (0, ∅) :=
  ⟨rfl, Nat.zero_le _, rfl, fun i => by simp [bit, Bitmap.new]⟩

/-! ### Runs -/

section Runs

variable (junk : ℕ → Word)

theorem run_holds {ops : List Op} (hops : Permitted (fun t op => op.InRange t) specStep (0, ∅) ops)
    (hfits : ∀ op ∈ ops, op.Fits) :
    ∃ os b, run (step junk) .new ops = .ok (os, b) ∧ Holds b (model ops) := by
  have hsim (b t op) (h : Holds b t) (hop : op.InRange t ∧ op.Fits) :
      ∃ b', step junk b op = .ok ((specStep t op).1, b') ∧ Holds b' (specStep t op).2 :=
    step_holds h hop
  obtain ⟨b, hrun, hb⟩ := run_refines hsim new_holds (hops.and_forall hfits)
  exact ⟨_, b, hrun, hb⟩

/-- A length that cannot be rounded up gets no words, and then there is nothing to show. -/
theorem not_shows_reset {done : List Op} {n : UInt64} (hn : ¬ (Op.reset n).Fits) {os : List Unit}
    {b : Bitmap} (hrun : run (step junk) .new (done ++ [.reset n]) = .ok (os, b)) :
    ¬ Shows b (model (done ++ [.reset n])) := by
  intro hshows
  obtain ⟨os', b₀, o, hdone, hstep, -⟩ := run_concat_eq_ok hrun
  have hkeeps (b op o b') (hb : b.word.length = numWords b.nbits) (hstep : step junk b op = .ok (o, b')) :
      b'.word.length = numWords b'.nbits := step_length hb hstep
  have hlength : b₀.word.length = numWords b₀.nbits := run_invariant hkeeps rfl hdone
  have hbits : (model (done ++ [.reset n])).1 = n.toNat := by
    rw [model, specRun_append_snd]
    rfl
  rw [Op.Fits] at hn
  rw [step, reset_eq hlength, numWords_eq, if_neg hn] at hstep
  cases hstep
  have hget := hshows.get 0 (by omega)
  simp [Bitmap.get, Bitmap.wordAt, bind, Except.bind] at hget

/-- **A bitmap is a set of indices.**  It shows the set all the time, exactly when no length asked for is
31 or less below 2⁶⁴. -/
theorem bitmap_shows_iff (ops : List Op)
    (hops : Permitted (fun t op => op.InRange t) specStep (0, ∅) ops) :
    AlwaysShows junk ops ↔ ∀ op ∈ ops, op.Fits := by
  constructor
  · intro h op hop
    cases op with
    | set i => trivial
    | clear i => trivial
    | reset n =>
      by_contra hn
      obtain ⟨done, rest, rfl⟩ := List.append_of_mem hop
      obtain ⟨os, b, hrun, hshows⟩ := h (done ++ [.reset n]) (by simp)
      exact not_shows_reset junk hn hrun hshows
  · intro h done hdone
    obtain ⟨os, b, hrun, hb⟩ :=
      run_holds junk (hops.of_prefix hdone) fun op hop => h op (hdone.subset hop)
    exact ⟨os, b, hrun, hb.shows⟩

theorem bitmap_shows_forty : AlwaysShows (fun _ => 0xdeadbeef) [.reset 40, .set 33, .clear 33] :=
  (bitmap_shows_iff _ [.reset 40, .set 33, .clear 33] ⟨trivial, (by decide : 33 < 40), (by decide : 33 < 40), trivial⟩).mpr
    (by simp [Op.Fits])

/-- The length 2⁶⁴ - 1 asks for 0 words. -/
theorem not_alwaysShows_max :
    Permitted (fun t op => Op.InRange t op) specStep (0, ∅) [.reset 0xffffffffffffffff] ∧
      ¬ AlwaysShows (fun _ => 0) [.reset 0xffffffffffffffff] := by
  refine ⟨⟨trivial, trivial⟩, fun h => ?_⟩
  obtain ⟨os, b, hrun, hshows⟩ := h _ List.prefix_rfl
  have hn : ¬ (Op.reset 0xffffffffffffffff).Fits := by
    rw [Op.Fits]
    decide
  exact @not_shows_reset (fun _ => 0) [] _ hn _ _ hrun hshows

end Runs

end LearnNetlib.Bitmaps
