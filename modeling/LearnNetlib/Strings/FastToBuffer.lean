import LearnNetlib.Foundations.Loops
import LearnNetlib.Foundations.ObjectStorage
import LearnNetlib.Strings.Numbers

/-!
# `FastInt32ToBufferLeft` and its siblings, and `StrCat` of an integer

* `fastInt32ToBufferLeft`, `fastUInt32ToBufferLeft`, `fastInt64ToBufferLeft`, `fastUInt64ToBufferLeft` —
  the code of `base/strings/numbers.cc`, in a buffer that begins anywhere;
* `AlphaNum`, `strCat` — what `base/strings/strcat.h` does with them;
* `Canonical` — a decimal without leading zeros, `-` for the negative; `Canonical.unique`;
* `loop_digitTurn` — the loop writes the digits backwards;
* **`fastToBuffer_writes`** — what is written, how much room it takes, that it is read back, and that
  `StrCat` is injective.
-/

namespace LearnNetlib.Strings

open ObjectStorage CType

/-! ### The code -/

/-- `std::reverse(buffer + first, buffer + last)`. -/
def reverseBytes (buffer : Bytes) (first last : ℕ) : Access Bytes := do
  let bytes ← readBytes buffer first (last - first)
  return overwrite buffer first bytes.reverse

/-- The variables of the loop over the digits. -/
structure Digits where
  i : ℕ
  buffer : Bytes
  p : ℕ
  deriving Repr, DecidableEq

/-- The body of the loop, then its test. -/
def digitTurn (s : Digits) : Access (Digits ⊕ Bytes × ℕ) := do
  let buffer ← writeByte s.buffer s.p (s.i % 10 + '0'.toNat).toUInt8
  if s.i / 10 > 0 then return .inl ⟨s.i / 10, buffer, s.p + 1⟩ else return .inr (buffer, s.p + 1)

/-- `FastUInt32ToBufferLeft` and `FastUInt64ToBufferLeft`: the buffer, and the end of the digits. Division
stays in the type, whichever it is. -/
def fastUIntToBufferLeft (i : ℕ) (buffer : Bytes) (start : ℕ) : Access (Bytes × ℕ) := do
  let (buffer, p) ← Loops.loop .stillRunning digitTurn (buffer.length + 1) ⟨i, buffer, start⟩
  let buffer ← writeByte buffer p 0
  let buffer ← reverseBytes buffer start p
  return (buffer, p)

/-- `FastUInt32ToBufferLeft`. -/
def fastUInt32ToBufferLeft (i : UInt32) (buffer : Bytes) (start : ℕ) : Access (Bytes × ℕ) :=
  fastUIntToBufferLeft i.toNat buffer start

/-- `FastUInt64ToBufferLeft`. -/
def fastUInt64ToBufferLeft (i : UInt64) (buffer : Bytes) (start : ℕ) : Access (Bytes × ℕ) :=
  fastUIntToBufferLeft i.toNat buffer start

/-- `FastInt32ToBufferLeft`. -/
def fastInt32ToBufferLeft (i : Int32) (buffer : Bytes) (start : ℕ) : Access (Bytes × ℕ) :=
  let u := i.toUInt32
  if i < 0 then do
    let buffer ← writeByte buffer start '-'.toUInt8
    -- We need to do the negation in modular (i.e., "unsigned") arithmetic
    fastUInt32ToBufferLeft (0 - u) buffer (start + 1)
  else fastUInt32ToBufferLeft u buffer start

/-- `FastInt64ToBufferLeft`. -/
def fastInt64ToBufferLeft (i : Int64) (buffer : Bytes) (start : ℕ) : Access (Bytes × ℕ) :=
  let u := i.toUInt64
  if i < 0 then do
    let buffer ← writeByte buffer start '-'.toUInt8
    fastUInt64ToBufferLeft (0 - u) buffer (start + 1)
  else fastUInt64ToBufferLeft u buffer start

/-- `kFastToBufferSize`. -/
def kFastToBufferSize : ℕ := 32

/-- An `AlphaNum` made from an integer: `digits_`, and the length of `piece_`, which begins there. -/
structure AlphaNum where
  digits : Bytes
  size : ℕ
  deriving Repr, DecidableEq

/-- `piece_(digits_, fast(i, digits_) - &digits_[0])`. -/
def AlphaNum.ofFast {α : Type} (fast : α → Bytes → ℕ → Access (Bytes × ℕ)) (digits : Bytes) (i : α) :
    Access AlphaNum := do
  let (digits, last) ← fast i digits 0
  return ⟨digits, last⟩

/-- `AlphaNum(int)`. -/
def AlphaNum.ofInt32 : Bytes → Int32 → Access AlphaNum := ofFast fastInt32ToBufferLeft

/-- `AlphaNum(unsigned int)`. -/
def AlphaNum.ofUInt32 : Bytes → UInt32 → Access AlphaNum := ofFast fastUInt32ToBufferLeft

/-- `AlphaNum(long)` and `AlphaNum(long long int)`. -/
def AlphaNum.ofInt64 : Bytes → Int64 → Access AlphaNum := ofFast fastInt64ToBufferLeft

/-- `AlphaNum(unsigned long)` and `AlphaNum(unsigned long long int)`. -/
def AlphaNum.ofUInt64 : Bytes → UInt64 → Access AlphaNum := ofFast fastUInt64ToBufferLeft

/-- `StrCat(a)`. -/
def strCat (a : AlphaNum) : Access Bytes := readBytes a.digits 0 a.size

/-! ### Decimals -/

/-- A digit. -/
def digitChar (d : ℕ) : UInt8 := (d + '0'.toNat).toUInt8

/-- The digits of a number. -/
def digits (m : ℕ) : Bytes := (Numeral.shortest 10 m).map digitChar

/-- No leading zeros, and `-` if and only if the number is negative. -/
def Canonical (n : ℤ) (s : Bytes) : Prop :=
  ∃ ds, s = (if n < 0 then '-'.toUInt8 :: ds else ds) ∧ ds ≠ [] ∧ (∀ c ∈ ds, isdigit c = true) ∧
    (ds.head? = some '0'.toUInt8 → ds = ['0'.toUInt8]) ∧ decimal ds = n.natAbs

theorem toNat_digitChar {d : ℕ} (hd : d < 10) : (digitChar d).toNat = d + 48 := by
  show (d + 48) % 256 = d + 48
  omega

theorem isdigit_digitChar {d : ℕ} (hd : d < 10) : isdigit (digitChar d) = true := by
  rw [isdigit_iff, toNat_digitChar hd]
  omega

theorem digitValue_digitChar {d : ℕ} (hd : d < 10) : digitValue (digitChar d) = d := by
  rw [digitValue, toNat_digitChar hd]
  exact Nat.add_sub_cancel d 48

theorem digitChar_digitValue {c : UInt8} (hc : isdigit c = true) : digitChar (digitValue c) = c := by
  have hrange := (isdigit_iff c).mp hc
  have hvalue : digitValue c = c.toNat - 48 := rfl
  rw [← UInt8.toNat_inj, toNat_digitChar (by omega)]
  omega

theorem digitValue_lt {c : UInt8} (hc : isdigit c = true) : digitValue c < 10 := by
  have hrange := (isdigit_iff c).mp hc
  have hvalue : digitValue c = c.toNat - 48 := rfl
  omega

theorem digits_ne_nil (m : ℕ) : digits m ≠ [] := by
  rw [digits, Ne, List.map_eq_nil_iff]
  exact Numeral.shortest_ne_nil m

theorem isdigit_digits (m : ℕ) : ∀ c ∈ digits m, isdigit c = true :=
  List.forall_mem_map.mpr fun _ hd => isdigit_digitChar (Numeral.shortest_lt (by decide) m _ hd)

theorem decimal_digits (m : ℕ) : decimal (digits m) = m := by
  have hback : (digits m).map digitValue = Numeral.shortest 10 m :=
    Numeral.map_map_of_forall fun d hd => digitValue_digitChar (Numeral.shortest_lt (by decide) m d hd)
  rw [decimal, hback, Numeral.value_shortest]

/-- **The one decimal without leading zeros.** -/
theorem eq_digits {ds : Bytes} (hne : ds ≠ []) (hds : ∀ c ∈ ds, isdigit c = true)
    (hzero : ds.head? = some '0'.toUInt8 → ds = ['0'.toUInt8]) : ds = digits (decimal ds) := by
  have hback : (ds.map digitValue).map digitChar = ds :=
    Numeral.map_map_of_forall fun c hc => digitChar_digitValue (hds c hc)
  have hshortest : ds.map digitValue = Numeral.shortest 10 (decimal ds) := by
    refine Numeral.eq_shortest (by decide) ?_ ?_ ?_
    · rwa [Ne, List.map_eq_nil_iff]
    · exact List.forall_mem_map.mpr fun c hc => digitValue_lt (hds c hc)
    · cases ds with
      | nil => exact absurd rfl hne
      | cons c ds =>
        intro hhead
        have hc : digitValue c = 0 := Option.some.inj hhead
        have hchar := digitChar_digitValue (hds c List.mem_cons_self)
        rw [hc] at hchar
        rw [hzero (congrArg some hchar.symm)]
        rfl
  rw [digits, ← hshortest, hback]

theorem head_digits {m : ℕ} (h : (digits m).head? = some '0'.toUInt8) : digits m = ['0'.toUInt8] := by
  have hhead : (Numeral.shortest 10 m).head? = some 0 := by
    rw [digits, List.head?_map] at h
    obtain ⟨d, hd, hchar⟩ := Option.map_eq_some_iff.mp h
    have hlt := Numeral.shortest_lt (b := 10) (by decide) m d (List.mem_of_head? hd)
    have hzero : d = 0 := by
      have hvalue := digitValue_digitChar hlt
      rw [hchar] at hvalue
      exact hvalue.symm
    rwa [hzero] at hd
  rw [digits, Numeral.shortest_of_head_zero hhead]
  rfl

theorem canonical_digits (n : ℤ) :
    Canonical n (if n < 0 then '-'.toUInt8 :: digits n.natAbs else digits n.natAbs) :=
  ⟨digits n.natAbs, rfl, digits_ne_nil _, isdigit_digits _, head_digits, decimal_digits _⟩

theorem Canonical.unique {n : ℤ} {s s' : Bytes} (h : Canonical n s) (h' : Canonical n s') : s = s' := by
  obtain ⟨ds, rfl, hne, hds, hzero, hvalue⟩ := h
  obtain ⟨ds', rfl, hne', hds', hzero', hvalue'⟩ := h'
  rw [eq_digits hne hds hzero, eq_digits hne' hds' hzero', hvalue, hvalue']

/-- What is canonical denotes the number. -/
theorem Canonical.denotes {n : ℤ} {s : Bytes} (h : Canonical n s) {signed : Bool}
    (hsigned : n < 0 → signed = true) : Denotes signed s n := by
  obtain ⟨ds, rfl, hne, hds, -, hvalue⟩ := h
  have hm : Magnitude ds n.natAbs :=
    ⟨ds, [], (List.append_nil ds).symm, hne, hds, by simp, hvalue.symm⟩
  by_cases hn : n < 0
  · rw [if_pos hn]
    exact ⟨[], ds, n.natAbs, by simp, hm, .inr ⟨hsigned hn, rfl, by omega⟩⟩
  · rw [if_neg hn]
    exact ⟨[], ds, n.natAbs, by simp, hm, .inl ⟨rfl, by omega⟩⟩

/-! ### The loop -/

/-- The last digit, and the digits before it. -/
theorem digits_eq_append (m : ℕ) :
    digits m = (if m / 10 = 0 then [] else digits (m / 10)) ++ [digitChar (m % 10)] := by
  rw [digits, Numeral.shortest_eq_append (by decide), List.map_append, apply_ite (List.map digitChar)]
  rfl

/-- A turn writes the last digit. -/
theorem digitTurn_eq {s : Digits} (h : s.p < s.buffer.length) :
    digitTurn s = .ok (if s.i / 10 = 0 then .inr (s.buffer.set s.p (digitChar (s.i % 10)), s.p + 1)
      else .inl ⟨s.i / 10, s.buffer.set s.p (digitChar (s.i % 10)), s.p + 1⟩) := by
  rw [digitTurn, writeByte_of_lt h]
  by_cases hi : s.i / 10 = 0
  · rw [if_pos hi]
    exact if_neg (by omega)
  · rw [if_neg hi]
    exact if_pos (by omega)

/-- **The loop writes the digits backwards.** -/
theorem loop_digitTurn (i : ℕ) {buffer : Bytes} {p n : ℕ} (hroom : p + (digits i).length ≤ buffer.length)
    (hn : (digits i).length ≤ n) :
    Loops.loop .stillRunning digitTurn n ⟨i, buffer, p⟩
      = .ok (overwrite buffer p (digits i).reverse, p + (digits i).length) := by
  induction n generalizing i buffer p with
  | zero => exact absurd (List.length_eq_zero_iff.mp (Nat.le_zero.mp hn)) (digits_ne_nil i)
  | succ n ih =>
    have hdigits := digits_eq_append i
    have hlength := congrArg List.length hdigits
    rw [List.length_append, List.length_singleton] at hlength
    have hlt : p < buffer.length := by omega
    rw [Loops.loop, digitTurn_eq hlt]
    by_cases hi : i / 10 = 0
    · rw [if_pos hi, List.nil_append] at hdigits
      rw [if_pos hi, hdigits, List.reverse_singleton, ← set_eq_overwrite hlt, List.length_singleton]
    · rw [if_neg hi] at hdigits hlength
      have hrest : Loops.loop .stillRunning digitTurn n
            ⟨i / 10, buffer.set p (digitChar (i % 10)), p + 1⟩
          = .ok (overwrite (buffer.set p (digitChar (i % 10))) (p + 1) (digits (i / 10)).reverse,
            p + 1 + (digits (i / 10)).length) :=
        ih (i / 10) (by rw [List.length_set]; omega) (by omega)
      have hend : p + 1 + (digits (i / 10)).length = p + (digits i).length := by omega
      rw [if_neg hi]
      show Loops.loop .stillRunning digitTurn n _ = _
      rw [hrest, overwrite_set_cons hlt, hend, hdigits, List.reverse_append]
      rfl

/-- The functions for the unsigned types. -/
theorem fastUIntToBufferLeft_eq {i : ℕ} {buffer : Bytes} {start : ℕ}
    (hroom : start + (digits i).length < buffer.length) :
    fastUIntToBufferLeft i buffer start
      = .ok (overwrite buffer start (digits i ++ [0]), start + (digits i).length) := by
  have hback : (digits i).reverse.length = (digits i).length := List.length_reverse
  have hloop : Loops.loop .stillRunning digitTurn (buffer.length + 1) ⟨i, buffer, start⟩
      = .ok (overwrite buffer start (digits i).reverse, start + (digits i).length) :=
    loop_digitTurn i (by omega) (by omega)
  have hnul : writeByte (overwrite buffer start (digits i).reverse) (start + (digits i).length) 0
      = .ok (overwrite buffer start ((digits i).reverse ++ [0])) := by
    rw [writeByte_of_lt (by rw [length_overwrite (by omega)]; omega), ← hback,
      set_overwrite (by omega)]
  have hreverse : reverseBytes (overwrite buffer start ((digits i).reverse ++ [0])) start
        (start + (digits i).length)
      = .ok (overwrite buffer start (digits i ++ [0])) := by
    have hlength : (overwrite buffer start ((digits i).reverse ++ [0])).length = buffer.length := by
      rw [length_overwrite (by omega), List.length_append, List.length_singleton]
      omega
    rw [reverseBytes, Nat.add_sub_cancel_left, readBytes_of_le (by omega), ← hback,
      take_drop_overwrite (by omega)]
    show Except.ok (overwrite _ start (digits i).reverse.reverse) = _
    rw [List.reverse_reverse, overwrite_overwrite (by omega) hback.symm]
  rw [fastUIntToBufferLeft, hloop]
  show (writeByte _ _ 0 >>= fun buffer => _) = _
  rw [hnul]
  show (reverseBytes _ _ _ >>= fun buffer => _) = _
  rw [hreverse]
  rfl

/-! ### The functions -/

/-- What is promised of a function: a canonical decimal and its terminator fit into `size` bytes, no
other byte is touched, and `parse` reads the number back. -/
def Writes {α : Type} (fast : α → Bytes → ℕ → Access (Bytes × ℕ)) (toInt : α → ℤ) (size : ℕ)
    (parse : Bytes → ℤ → Option (Bool × ℤ)) : Prop :=
  ∀ i, ∃ s, Canonical (toInt i) s ∧ s.length + 1 ≤ size ∧
    (∀ buffer start, start + size ≤ buffer.length →
      fast i buffer start = .ok (overwrite buffer start (s ++ [0]), start + s.length)) ∧
    ∀ value, parse s value = some (true, toInt i)

/-- `StrCat` of an integer, whatever `digits_` holds before. -/
def StrCatInjective {α : Type} (ofInt : Bytes → α → Access AlphaNum) : Prop :=
  ∃ cat : α → Bytes, Function.Injective cat ∧
    ∀ (digits : Bytes) (i : α), digits.length = kFastToBufferSize →
      (ofInt digits i >>= strCat) = .ok (cat i)

theorem writes_of {α : Type} {fast : α → Bytes → ℕ → Access (Bytes × ℕ)} {toInt : α → ℤ} {size k : ℕ}
    {parse : Bytes → ℤ → Option (Bool × ℤ)} {signed : Bool} {lo hi : ℤ}
    (hfast : ∀ i buffer start, fast i buffer start = if toInt i < 0
      then writeByte buffer start '-'.toUInt8 >>= fun buffer =>
        fastUIntToBufferLeft (toInt i).natAbs buffer (start + 1)
      else fastUIntToBufferLeft (toInt i).natAbs buffer start)
    (hrange : ∀ i, lo ≤ toInt i ∧ toInt i ≤ hi) (hsigned : ∀ i, toInt i < 0 → signed = true)
    (hk : 0 < k) (hdigits : ∀ i, (toInt i).natAbs < 10 ^ k) (hsize : k + 2 ≤ size)
    (hparse : Parses parse signed lo hi) : Writes fast toInt size parse := by
  intro i
  have hcanonical := canonical_digits (toInt i)
  have hlength : (digits (toInt i).natAbs).length ≤ k := by
    rw [digits, List.length_map]
    exact Numeral.length_shortest_le (by decide) hk (hdigits i)
  refine ⟨_, hcanonical, ?_, ?_, ?_⟩
  · split_ifs
    · rw [List.length_cons]
      omega
    · omega
  · intro buffer start hroom
    rw [hfast]
    by_cases hi : toInt i < 0
    · have hlt : start < buffer.length := by omega
      rw [if_pos hi, if_pos hi, writeByte_of_lt hlt]
      show fastUIntToBufferLeft _ (buffer.set start _) (start + 1) = _
      rw [fastUIntToBufferLeft_eq (by rw [List.length_set]; omega), overwrite_set_cons hlt,
        List.length_cons, List.cons_append, Nat.add_assoc, Nat.add_comm 1]
    · rw [if_neg hi, if_neg hi, fastUIntToBufferLeft_eq (by omega)]
  · exact hparse.accepts (hcanonical.denotes (hsigned i)) (hrange i).1 (hrange i).2

theorem Writes.strCatInjective {α : Type} {fast : α → Bytes → ℕ → Access (Bytes × ℕ)} {toInt : α → ℤ}
    {size : ℕ} {parse : Bytes → ℤ → Option (Bool × ℤ)} (h : Writes fast toInt size parse)
    (hsize : size ≤ kFastToBufferSize) (hinj : Function.Injective toInt) :
    StrCatInjective (AlphaNum.ofFast fast) := by
  choose cat _ hlength hfast hparse using h
  refine ⟨cat, ?_, ?_⟩
  · intro i j hij
    -- what is read back from one string is one number
    have hread := hparse i 0
    rw [hij, hparse j 0] at hread
    exact hinj (Prod.mk.inj (Option.some.inj hread)).2.symm
  · intro digits i hdigits
    rw [AlphaNum.ofFast, hfast i digits 0 (by omega)]
    show readBytes (overwrite digits 0 (cat i ++ [0])) 0 (0 + (cat i).length) = _
    have hroom := hlength i
    rw [Nat.zero_add, readBytes_of_le, take_drop_overwrite (Nat.zero_le _)]
    rw [length_overwrite (Nat.zero_le _), List.length_append]
    omega

theorem writes_unsigned {α : Type} {fast : α → Bytes → ℕ → Access (Bytes × ℕ)} {toNat : α → ℕ}
    {limit size k : ℕ} {parse : Bytes → ℤ → Option (Bool × ℤ)}
    (hfast : ∀ i buffer start, fast i buffer start = fastUIntToBufferLeft (toNat i) buffer start)
    (hlimit : ∀ i, toNat i ≤ limit) (hk : 0 < k) (hdigits : limit < 10 ^ k) (hsize : k + 2 ≤ size)
    (hparse : Parses parse false 0 limit) : Writes fast (fun i => toNat i) size parse := by
  refine writes_of ?_ ?_ ?_ hk ?_ hsize hparse
  · intro i buffer start
    rw [hfast, if_neg (by omega)]
    rfl
  · intro i
    have := hlimit i
    omega
  · intro i hneg
    omega
  · intro i
    have := hlimit i
    omega

/-- `toNat` is the conversion to the unsigned type of `2 * half` values, `neg` that and `0 - u`. -/
theorem writes_signed {α : Type} {fast : α → Bytes → ℕ → Access (Bytes × ℕ)} {toInt : α → ℤ}
    {toNat neg : α → ℕ} {half size k : ℕ} {parse : Bytes → ℤ → Option (Bool × ℤ)}
    (hfast : ∀ i buffer start, fast i buffer start = if toInt i < 0
      then writeByte buffer start '-'.toUInt8 >>= fun buffer =>
        fastUIntToBufferLeft (neg i) buffer (start + 1)
      else fastUIntToBufferLeft (toNat i) buffer start)
    (htoNat : ∀ i, (toNat i : ℤ) = if toInt i < 0 then toInt i + 2 * half else toInt i)
    (hneg : ∀ i, neg i = (2 * half - toNat i) % (2 * half))
    (hrange : ∀ i, -half ≤ toInt i ∧ toInt i ≤ half - 1) (hk : 0 < k) (hdigits : half < 10 ^ k)
    (hsize : k + 2 ≤ size) (hparse : Parses parse true (-half) (half - 1)) :
    Writes fast toInt size parse := by
  refine writes_of ?_ hrange (fun _ _ => rfl) hk ?_ hsize hparse
  · intro i buffer start
    have hvalue := htoNat i
    obtain ⟨hlo, hhi⟩ := hrange i
    rw [hfast]
    by_cases hi : toInt i < 0
    · -- the least value too: the difference is taken modulo `2 * half`
      rw [if_pos hi] at hvalue
      have habs : neg i = (toInt i).natAbs := by
        rw [hneg, Nat.mod_eq_of_lt (by omega)]
        omega
      rw [if_pos hi, if_pos hi, habs]
    · rw [if_neg hi] at hvalue
      have habs : toNat i = (toInt i).natAbs := by omega
      rw [if_neg hi, if_neg hi, habs]
  · intro i
    obtain ⟨hlo, hhi⟩ := hrange i
    omega

theorem fastUInt32ToBufferLeft_writes :
    Writes fastUInt32ToBufferLeft (fun i => i.toNat) 12 safeStrtou32 :=
  writes_unsigned (fun _ _ _ => rfl) (fun i => Nat.le_pred_of_lt i.toNat_lt) (Nat.zero_lt_succ 9)
    (by decide) le_rfl safeStrtou32_parses

theorem fastUInt64ToBufferLeft_writes :
    Writes fastUInt64ToBufferLeft (fun i => i.toNat) 22 safeStrtou64 :=
  writes_unsigned (fun _ _ _ => rfl) (fun i => Nat.le_pred_of_lt i.toNat_lt) (Nat.zero_lt_succ 19)
    (by decide) le_rfl safeStrtou64_parses

/-- The conversion of `int32` to `uint32`. -/
theorem toInt_int32 (i : Int32) : (-2 ^ 31 ≤ i.toInt ∧ i.toInt ≤ 2 ^ 31 - 1) ∧
    (i.toUInt32.toNat : ℤ) = if i.toInt < 0 then i.toInt + 2 ^ 32 else i.toInt := by
  have hvalue : i.toInt = if 2 * i.toUInt32.toNat < 2 ^ 32 then (i.toUInt32.toNat : ℤ)
      else (i.toUInt32.toNat : ℤ) - (2 ^ 32 : ℕ) := BitVec.toInt_eq_toNat_cond _
  have hlt := i.toUInt32.toNat_lt
  split_ifs at hvalue ⊢ <;> omega

/-- The conversion of `int64` to `uint64`. -/
theorem toInt_int64 (i : Int64) : (-2 ^ 63 ≤ i.toInt ∧ i.toInt ≤ 2 ^ 63 - 1) ∧
    (i.toUInt64.toNat : ℤ) = if i.toInt < 0 then i.toInt + 2 ^ 64 else i.toInt := by
  have hvalue : i.toInt = if 2 * i.toUInt64.toNat < 2 ^ 64 then (i.toUInt64.toNat : ℤ)
      else (i.toUInt64.toNat : ℤ) - (2 ^ 64 : ℕ) := BitVec.toInt_eq_toNat_cond _
  have hlt := i.toUInt64.toNat_lt
  split_ifs at hvalue ⊢ <;> omega

theorem fastInt32ToBufferLeft_writes : Writes fastInt32ToBufferLeft Int32.toInt 12 safeStrto32 := by
  refine writes_signed ?_ (fun i => (toInt_int32 i).2) (fun i => UInt32.toNat_sub 0 i.toUInt32)
    (fun i => (toInt_int32 i).1) (Nat.zero_lt_succ 9) (by decide) le_rfl safeStrto32_parses
  intro i buffer start
  simp only [← Int32.toInt_zero, ← Int32.lt_iff_toInt_lt]
  rfl

theorem fastInt64ToBufferLeft_writes : Writes fastInt64ToBufferLeft Int64.toInt 22 safeStrto64 := by
  refine writes_signed ?_ (fun i => (toInt_int64 i).2) (fun i => UInt64.toNat_sub 0 i.toUInt64)
    (fun i => (toInt_int64 i).1) (Nat.zero_lt_succ 19) (by decide) le_rfl safeStrto64_parses
  intro i buffer start
  simp only [← Int64.toInt_zero, ← Int64.lt_iff_toInt_lt]
  rfl

/-- **Integers are written as they are read**, within the documented bytes; so `StrCat` is injective. -/
theorem fastToBuffer_writes :
    (Writes fastInt32ToBufferLeft Int32.toInt 12 safeStrto32 ∧ StrCatInjective AlphaNum.ofInt32) ∧
      (Writes fastUInt32ToBufferLeft (fun i => i.toNat) 12 safeStrtou32 ∧
        StrCatInjective AlphaNum.ofUInt32) ∧
      (Writes fastInt64ToBufferLeft Int64.toInt 22 safeStrto64 ∧ StrCatInjective AlphaNum.ofInt64) ∧
      Writes fastUInt64ToBufferLeft (fun i => i.toNat) 22 safeStrtou64 ∧
        StrCatInjective AlphaNum.ofUInt64 := by
  have hint32 : Function.Injective Int32.toInt := fun i j h => Int32.toInt_inj.mp h
  have hint64 : Function.Injective Int64.toInt := fun i j h => Int64.toInt_inj.mp h
  have huint32 : Function.Injective fun i : UInt32 => (i.toNat : ℤ) :=
    fun i j h => UInt32.toNat_inj.mp (Int.ofNat_inj.mp h)
  have huint64 : Function.Injective fun i : UInt64 => (i.toNat : ℤ) :=
    fun i j h => UInt64.toNat_inj.mp (Int.ofNat_inj.mp h)
  refine ⟨⟨fastInt32ToBufferLeft_writes, ?_⟩, ⟨fastUInt32ToBufferLeft_writes, ?_⟩,
    ⟨fastInt64ToBufferLeft_writes, ?_⟩, fastUInt64ToBufferLeft_writes, ?_⟩
  · exact fastInt32ToBufferLeft_writes.strCatInjective (by decide) hint32
  · exact fastUInt32ToBufferLeft_writes.strCatInjective (by decide) huint32
  · exact fastInt64ToBufferLeft_writes.strCatInjective (by decide) hint64
  · exact fastUInt64ToBufferLeft_writes.strCatInjective (by decide) huint64

/-- The smallest `int32` takes all twelve bytes. -/
example : fastInt32ToBufferLeft (-2147483648) (List.replicate 12 0) 0
    = .ok ("-2147483648".toList.map Char.toUInt8 ++ [0], 11) := by
  decide +kernel

end LearnNetlib.Strings
