import LearnNetlib.Base.Coding
import LearnNetlib.Base.StringEncode
import LearnNetlib.Foundations.Numeral
import Mathlib.Data.List.Flatten
import Mathlib.Data.Nat.ModEq

/-!
# The keys of the log database

`IndexToKey` and `KeyToIndex` of `log/leveldb_database.cc`.

* `CheckFailure`, `Checks` — the `CHECK`s of the file, and computations they stop;
* `indexToKey`, `keyToIndex` — the codec as the code computes it;
* `indexToKey_eq` — what the nibble loop writes: sixteen digits of the number, and those of 0 for
  every number that is not positive;
* **`keyToIndex_indexToKey_iff`** — the codec inverts exactly on the non-negative numbers, for
  `indexToKey_of_nonpos` gives all others the key of 0;
* `indexToKey_injective` — different numbers have different keys unless neither is positive;
* **`indexToKey_lt`**, `indexToKey_le_iff` — keys are in the order of their numbers.
-/

namespace LearnNetlib.Log

/-! ### Checks -/

/-- The `CHECK`s that may stop the process. -/
inductive CheckFailure
  /-- `CHECK(key.starts_with(kEntryPrefix))`. -/
  | keyPrefix
  /-- What stops `base::HexDecode`. -/
  | hexDecode (s : Stop)
  /-- `CHECK_EQ(index_str.size(), sizeof(index))`. -/
  | keySize
  /-- `CHECK(entry->ParseFromString(...))`. -/
  | parseFromString
  /-- `CHECK_EQ(entry->sequence_number(), seq)`. -/
  | sequenceNumber
  /-- `CHECK_EQ(result->Hash(), hash)`. -/
  | hash
  /-- `CHECK(sparse_entries_.insert(sequence_number).second)`. -/
  | alreadyAssigned
  deriving Repr, DecidableEq

/-- A computation that a failing `CHECK` stops. -/
abbrev Checks (α : Type) := Except CheckFailure α

/-- `CHECK(p)`. -/
def check (c : CheckFailure) (p : Prop) [Decidable p] : Checks Unit := if p then .ok () else .error c

theorem check_of {c : CheckFailure} {p : Prop} [Decidable p] (h : p) : check c p = .ok () := if_pos h

theorem check_of_not {c : CheckFailure} {p : Prop} [Decidable p] (h : ¬ p) :
    check c p = .error c := if_neg h

@[simp] theorem Checks.ok_bind {α β : Type} (a : α) (f : α → Checks β) :
    (Except.ok a >>= f) = f a := rfl

@[simp] theorem Checks.error_bind {α β : Type} (c : CheckFailure) (f : α → Checks β) :
    ((Except.error c : Checks α) >>= f) = .error c := rfl

@[simp] theorem Checks.pure_eq {α : Type} (a : α) : (pure a : Checks α) = .ok a := rfl

/-! ### `int64_t` -/

instance int64LinearOrder : LinearOrder Int64 where
  le_refl := Int64.le_refl
  le_trans _ _ _ := Int64.le_trans
  le_antisymm _ _ := Int64.le_antisymm
  le_total := Int64.le_total
  lt_iff_le_not_ge a b := by
    rw [Int64.lt_iff_toInt_lt, Int64.le_iff_toInt_le, Int64.le_iff_toInt_le]
    omega
  toDecidableLE := inferInstance
  toDecidableEq := inferInstance
  toDecidableLT := inferInstance

theorem toInt_nonneg_iff {i : Int64} : 0 ≤ i.toInt ↔ 0 ≤ i := by
  rw [Int64.le_iff_toInt_le, Int64.toInt_zero]

theorem toInt_pos_iff {i : Int64} : 0 < i.toInt ↔ 0 < i := by
  rw [Int64.lt_iff_toInt_lt, Int64.toInt_zero]

/-- A non-negative number is its bits. -/
theorem toUInt64_toNat {i : Int64} (h : 0 ≤ i.toInt) : i.toUInt64.toNat = i.toInt.toNat := by
  have hlt := i.toUInt64.toNat_lt
  have hcond : i.toInt = _ := BitVec.toInt_eq_toNat_cond i.toBitVec
  rw [show i.toBitVec.toNat = i.toUInt64.toNat from rfl] at hcond
  split at hcond <;> omega

theorem toInt_shiftRight_nibble (i : Int64) : (i >>> 4).toInt = i.toInt / 16 := by
  show (i.toBitVec.sshiftRight 4).toInt = i.toBitVec.toInt / 16
  rw [BitVec.toInt_sshiftRight, Int.shiftRight_eq_div_pow]
  rfl

theorem toUInt64_nibble (i : Int64) : (i &&& 0xf).toUInt64.toNat = i.toUInt64.toNat % 16 := by
  show i.toUInt64.toNat &&& (2 ^ 4 - 1) = _
  rw [Nat.and_two_pow_sub_one_eq_mod]

/-! ### The codec -/

def kEntryPrefix : Bytes := ['e', 'n', 't', 'r', 'y', '-'].map Char.toUInt8

/-- `nibble` in `IndexToKey`. -/
def nibble : Bytes :=
  ['0', '1', '2', '3', '4', '5', '6', '7', '8', '9', 'a', 'b', 'c', 'd', 'e', 'f'].map Char.toUInt8

/-- `nibble[n]`. -/
def nibbleAt (n : ℕ) : UInt8 := nibble.getD n 0

/-- The loop of `IndexToKey`: `i`, `index` and `index_str`. -/
def indexToKeyLoop : ℕ → Int64 → Bytes → Bytes
  | 0, _, indexStr => indexStr
  | i + 1, index, indexStr =>
    if 0 < index then
      indexToKeyLoop i (index >>> 4) (indexStr.set i (nibbleAt (index &&& 0xf).toUInt64.toNat))
    else indexStr

/-- `IndexToKey`. -/
def indexToKey (index : Int64) : Bytes :=
  kEntryPrefix ++ indexToKeyLoop 16 index (List.replicate 16 (nibbleAt 0))

/-- A turn of the loop of `KeyToIndex`. -/
def appendByte (index : Int64) (c : UInt8) : Int64 := (index <<< 8) ||| c.toUInt64.toInt64

/-- `KeyToIndex`. -/
def keyToIndex (key : Bytes) : Checks Int64 := do
  check .keyPrefix (kEntryPrefix <+: key)
  let indexStr ← (hexDecode (key.drop kEntryPrefix.length)).mapError .hexDecode
  check .keySize (indexStr.length = 8)
  return indexStr.foldl appendByte 0

/-! ### What the codec computes -/

open Numeral

theorem indexToKeyLoop_eq (i : ℕ) (index : Int64) (tail : Bytes) :
    indexToKeyLoop i index (List.replicate i (nibbleAt 0) ++ tail)
      = (numeral 16 i index.toInt.toNat).map nibbleAt ++ tail := by
  induction i generalizing index tail with
  | zero => rfl
  | succ i ih =>
    rw [indexToKeyLoop]
    by_cases hpos : 0 < index
    · -- one more digit in front of `tail`
      have hint := toInt_pos_iff.mpr hpos
      have hset : (List.replicate (i + 1) (nibbleAt 0) ++ tail).set i
            (nibbleAt (index &&& 0xf).toUInt64.toNat)
          = List.replicate i (nibbleAt 0) ++ nibbleAt (index.toInt.toNat % 16) :: tail := by
        rw [toUInt64_nibble, toUInt64_toNat hint.le, List.replicate_succ', List.append_assoc,
          List.set_append_right _ _ (by rw [List.length_replicate]), List.length_replicate,
          Nat.sub_self]
        rfl
      rw [if_pos hpos, hset, ih, toInt_shiftRight_nibble,
        show (index.toInt / 16).toNat = index.toInt.toNat / 16 by omega, numeral, List.map_append,
        List.append_assoc]
      rfl
    · have hint : index.toInt.toNat = 0 := by
        have := mt toInt_pos_iff.mp hpos
        omega
      rw [if_neg hpos, hint, numeral_zero, List.map_replicate]

/-- **What `IndexToKey` writes**: sixteen digits of the number, or of 0 if it is not positive. -/
theorem indexToKey_eq (i : Int64) :
    indexToKey i = kEntryPrefix ++ (numeral 16 16 i.toInt.toNat).map nibbleAt := by
  have hloop := indexToKeyLoop_eq 16 i []
  rw [List.append_nil, List.append_nil] at hloop
  rw [indexToKey, hloop]

theorem startsWith_indexToKey (i : Int64) : kEntryPrefix <+: indexToKey i := List.prefix_append _ _

/-- All numbers that are not positive share the key of 0. -/
theorem indexToKey_max_zero (i : Int64) : indexToKey (max i 0) = indexToKey i := by
  rcases le_total i 0 with h | h
  · have := Int64.le_iff_toInt_le.mp h
    rw [Int64.toInt_zero] at this
    rw [max_eq_right h, indexToKey_eq, indexToKey_eq, Int64.toInt_zero,
      show i.toInt.toNat = Int.toNat 0 by omega]
  · rw [max_eq_left h]

theorem indexToKey_of_nonpos {i : Int64} (h : i ≤ 0) : indexToKey i = indexToKey 0 := by
  rw [← indexToKey_max_zero, max_eq_right h]

theorem hexDecodeChar_nibbleAt : ∀ d < 16, hexDecodeChar (nibbleAt d) = some (UInt8.ofNat d) := by
  decide

/-- The digits behind the prefix decode to the number's bytes. -/
theorem hexDecode_digits (n : ℕ) :
    hexDecode ((numeral 16 16 n).map nibbleAt) = .ok ((numeral 256 8 n).map UInt8.ofNat) := by
  have hne : numeral 256 8 n ≠ [] := List.ne_nil_of_length_pos (by rw [numeral_length]; decide)
  rw [show numeral 16 16 n = _ from numeral_mul_self 8 n, List.map_flatMap,
    ← hexDecode_flatMap hexDecodeChar_nibbleAt (numeral_lt (by decide) 8 n) hne]
  rfl

/-- One more byte at the right end, as far as 64 bits reach. -/
theorem toUInt64_appendByte (i : Int64) (c : UInt8) :
    (appendByte i c).toUInt64.toNat = (i.toUInt64.toNat * 256 + c.toNat) % 2 ^ 64 := by
  have hc := c.toNat_lt
  show (i.toUInt64.toNat <<< 8) % 2 ^ 64 ||| c.toNat = _
  rw [Nat.shiftLeft_eq, show i.toUInt64.toNat * 2 ^ 8 % 2 ^ 64 = i.toUInt64.toNat % 2 ^ 56 * 2 ^ 8 by
    omega, Nat.or_comm, ← Nat.shiftLeft_eq, or_shiftLeft_toNat _ _ 8 (by omega)]
  omega

/-- `KeyToIndex` puts the bytes together. -/
theorem foldl_toUInt64 {ds : List ℕ} (hds : ∀ d ∈ ds, d < 256) {i : Int64} {a : ℕ}
    (h : i.toUInt64.toNat ≡ a [MOD 2 ^ 64]) :
    ((ds.map UInt8.ofNat).foldl appendByte i).toUInt64.toNat
      ≡ ds.foldl (fun acc d => acc * 256 + d) a [MOD 2 ^ 64] := by
  induction ds generalizing i a with
  | nil => exact h
  | cons d ds ih =>
    rw [List.map_cons, List.foldl_cons, List.foldl_cons]
    apply ih fun e he => hds e (List.mem_cons_of_mem _ he)
    rw [toUInt64_appendByte, UInt8.toNat_ofNat_of_lt' (hds d List.mem_cons_self)]
    exact (Nat.mod_modEq _ _).trans ((h.mul_right 256).add_right d)

/-- **What the round trip gives.** -/
theorem keyToIndex_indexToKey (i : Int64) : keyToIndex (indexToKey i) = .ok (max i 0) := by
  rw [← indexToKey_max_zero]
  generalize hj : max i 0 = j
  have hj0 : 0 ≤ j.toInt := toInt_nonneg_iff.mpr (hj ▸ le_max_right i 0)
  have hlt := j.toInt_lt
  have hvalue : value 256 (numeral 256 8 j.toInt.toNat) = j.toInt.toNat := by
    rw [value_numeral, Nat.mod_eq_of_lt (by omega)]
  have hfold := foldl_toUInt64 (numeral_lt (by decide) 8 j.toInt.toNat)
    (show (0 : Int64).toUInt64.toNat ≡ 0 [MOD 2 ^ 64] from Nat.ModEq.refl 0)
  rw [value] at hvalue
  rw [hvalue] at hfold
  have hbits := hfold.eq_of_lt_of_lt (UInt64.toNat_lt _) (by omega)
  rw [← toUInt64_toNat hj0, UInt64.toNat_inj, toUInt64_toNat hj0] at hbits
  have hback := congrArg UInt64.toInt64 hbits
  rw [keyToIndex, check_of (startsWith_indexToKey j), Checks.ok_bind, indexToKey_eq, List.drop_left,
    hexDecode_digits, Except.mapError, Checks.ok_bind, check_of (by simp), Checks.ok_bind]
  exact congrArg Except.ok hback

/-- **The codec inverts exactly on the non-negative numbers.** -/
theorem keyToIndex_indexToKey_iff (i : Int64) : keyToIndex (indexToKey i) = .ok i ↔ 0 ≤ i := by
  rw [keyToIndex_indexToKey, Except.ok.injEq, max_eq_left_iff]

/-- Numbers with one key are equal, or neither is positive. -/
theorem indexToKey_injective {i j : Int64} (h : indexToKey i = indexToKey j) :
    max i 0 = max j 0 := by
  have hi := keyToIndex_indexToKey i
  rw [h, keyToIndex_indexToKey, Except.ok.injEq] at hi
  exact hi.symm

/-! ### The order of the keys -/

theorem nibbleAt_lt : ∀ d < 16, ∀ e < 16, d < e → nibbleAt d < nibbleAt e := by decide

/-- **The larger number has the larger key.** -/
theorem indexToKey_lt {i j : Int64} (hi : 0 ≤ i) (h : i < j) : indexToKey i < indexToKey j := by
  have hi0 := toInt_nonneg_iff.mpr hi
  have hlt := Int64.lt_iff_toInt_lt.mp h
  have hj := j.toInt_lt
  rw [indexToKey_eq, indexToKey_eq, append_lt_append_iff rfl]
  refine .inr ⟨rfl, map_lt_map (fun d hd e he => nibbleAt_lt d ?_ e ?_) ?_⟩
  · exact numeral_lt (by decide) 16 _ d hd
  · exact numeral_lt (by decide) 16 _ e he
  · exact numeral_lt_numeral (by omega) (by omega)

theorem indexToKey_le_iff {i j : Int64} (hj : 0 ≤ j) :
    indexToKey i ≤ indexToKey j ↔ max i 0 ≤ j := by
  rw [← indexToKey_max_zero i]
  constructor
  · intro hle
    by_contra hlt
    exact absurd (indexToKey_lt hj (not_le.mp hlt)) (not_lt.mpr hle)
  · intro hle
    rcases hle.lt_or_eq with hlt | heq
    · exact (indexToKey_lt (le_max_right i 0) hlt).le
    · rw [heq]

end LearnNetlib.Log
