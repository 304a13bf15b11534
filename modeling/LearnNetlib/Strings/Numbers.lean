import LearnNetlib.Base.CType
import LearnNetlib.Foundations.Numeral
import Mathlib.Data.List.TakeWhile

/-!
# `safe_strto32`, `safe_strtou32`, `safe_strto64` and `safe_strtou64`

Arithmetic is that of the integers, and an operation has no result once it leaves its type.

* `safeStrto32`, `safeStrtou32`, `safeStrto64`, `safeStrtou64` — the code of `base/strings/numbers.cc`;
* `Denotes` — the strings that denote an integer;
* `Steps` — what is promised of one digit, and `steps_strto64`, `steps_strto64_negative`,
  `steps_strtou64`, `steps_strto32`: each test for overflow is exact;
* `digitsLoop_eq`, **`scanNumber_of_magnitude`** — what one digit is promised holds of the whole number;
* **`safeStrto_parses`** — the four functions accept what denotes an integer of their type.
-/

namespace LearnNetlib.Strings

open CType

/-! ### The code -/

/-- `kint32max`. -/
def kint32max : ℤ := 0x7fffffff

/-- `kuint32max`. -/
def kuint32max : ℤ := 0xffffffff

/-- `kint64min`. -/
def kint64min : ℤ := -0x8000000000000000

/-- `kint64max`. -/
def kint64max : ℤ := 0x7fffffffffffffff

/-- `kuint64max`. -/
def kuint64max : ℤ := 0xffffffffffffffff

/-- The result of an operation on `int64`. -/
def int64 (x : ℤ) : Option ℤ := if kint64min ≤ x ∧ x ≤ kint64max then some x else none

/-- The result of an operation on `uint64`. -/
def uint64 (x : ℤ) : Option ℤ := if 0 ≤ x ∧ x ≤ kuint64max then some x else none

/-- `SafeFirstChar`. -/
def safeFirstChar (str : Bytes) : UInt8 := str.headD 0

/-- `SkipSpaces`; the first character of an empty string is no space. -/
def skipSpaces : Bytes → Bytes
  | [] => []
  | c :: str => if isspace c then skipSpaces str else c :: str

/-- `StringPiece::Consume`. -/
def consume (x str : Bytes) : Bool × Bytes :=
  if x.isPrefixOf str then (true, str.drop x.length) else (false, str)

/-- `c - '0'`. -/
def digit (c : UInt8) : ℤ := c.toNat - '0'.toNat

/-- The body of the loop of `safe_strto64` for a positive number; `none` inside is `return false`. -/
def strto64Step (vlimit result : ℤ) (c : UInt8) : Option (Option ℤ) := do
  let room ← int64 (vlimit - digit c)
  if room.tdiv 10 < result then return none
  else
    let tens ← int64 (result * 10)
    let result ← int64 (tens + digit c)
    return some result

/-- The body of the loop of `safe_strto64` for a negative number. -/
def strto64NegativeStep (vlimit result : ℤ) (c : UInt8) : Option (Option ℤ) := do
  let room ← int64 (vlimit + digit c)
  if room.tdiv 10 > result then return none
  else
    let tens ← int64 (result * 10)
    let result ← int64 (tens - digit c)
    return some result

/-- The body of the loop of `safe_strtou64`. -/
def strtou64Step (result : ℤ) (c : UInt8) : Option (Option ℤ) := do
  let room ← uint64 (kuint64max - digit c)
  if room / 10 < result then return none
  else
    let tens ← uint64 (result * 10)
    let result ← uint64 (tens + digit c)
    return some result

/-- The body of the loops of `safe_strto32` and `safe_strtou32`, which compute in `int64`. -/
def strto32Step (vmax result : ℤ) (c : UInt8) : Option (Option ℤ) := do
  let tens ← int64 (result * 10)
  let sum ← int64 (tens + c.toNat)
  let result ← int64 (sum - '0'.toNat)
  if result > vmax then return none else return some result

/-- The loop over the digits: the result and what is left of the string. -/
def digitsLoop (step : ℤ → UInt8 → Option (Option ℤ)) : Bytes → ℤ → Option (Option (ℤ × Bytes))
  | [], result => some (some (result, []))
  | c :: str, result =>
    if isdigit c then
      match step result c with
      | none => none
      | some none => some none
      | some (some result) => digitsLoop step str result
    else some (some (result, c :: str))

/-- What the functions do behind the sign: at least one digit, then spaces, then nothing. -/
def scanNumber (step : ℤ → UInt8 → Option (Option ℤ)) (str : Bytes) : Option (Option ℤ) :=
  if isdigit (safeFirstChar str) then
    match digitsLoop step str 0 with
    | none => none
    | some none => some none
    | some (some (result, str)) => some (if skipSpaces str = [] then some result else none)
  else some none

/-- `*value = result; return true`, or `return false`. -/
def store (value : ℤ) : Option ℤ → Bool × ℤ
  | none => (false, value)
  | some result => (true, result)

/-- `safe_strto64`: what is returned, and `*value`. -/
def safeStrto64 (str : Bytes) (value : ℤ) : Option (Bool × ℤ) := do
  let (negative, str) := consume ['-'.toUInt8] (skipSpaces str)
  let number ←
    -- Different limit for positive and negative integers.
    if negative then scanNumber (strto64NegativeStep kint64min) str
    else scanNumber (strto64Step kint64max) str
  return store value number

/-- `safe_strtou64`. -/
def safeStrtou64 (str : Bytes) (value : ℤ) : Option (Bool × ℤ) := do
  let number ← scanNumber strtou64Step (skipSpaces str)
  return store value number

/-- `static_cast<int32>(result * sign)`. -/
def toInt32 (sign : ℤ) : Option ℤ → Option (Option ℤ)
  | none => some none
  | some result => do
    let product ← int64 (result * sign)
    return some (product.bmod (2 ^ 32))

/-- `safe_strto32`. -/
def safeStrto32 (str : Bytes) (value : ℤ) : Option (Bool × ℤ) := do
  let (negative, str) := consume ['-'.toUInt8] (skipSpaces str)
  -- Different max for positive and negative integers.
  let vmax ← if negative then int64 (kint32max + 1) else some kint32max
  let number ← scanNumber (strto32Step vmax) str
  let number ← toInt32 (if negative then -1 else 1) number
  return store value number

/-- `safe_strtou32`. -/
def safeStrtou32 (str : Bytes) (value : ℤ) : Option (Bool × ℤ) := do
  let number ← scanNumber (strto32Step kuint32max) (skipSpaces str)
  -- `static_cast<uint32>(result)`
  return store value (number.map (· % 2 ^ 32))

/-! ### What denotes an integer -/

/-- The value of a digit. -/
def digitValue (c : UInt8) : ℕ := c.toNat - '0'.toNat

/-- The number that digits spell. -/
def decimal (ds : Bytes) : ℕ := Numeral.value 10 (ds.map digitValue)

/-- `[0-9]+`, then spaces. -/
def Magnitude (str : Bytes) (m : ℕ) : Prop :=
  ∃ ds post, str = ds ++ post ∧ ds ≠ [] ∧ (∀ c ∈ ds, isdigit c = true) ∧
    (∀ c ∈ post, isspace c = true) ∧ m = decimal ds

/-- Spaces, an optional `-` for the signed types, `[0-9]+`, spaces: the integer denoted. -/
def Denotes (signed : Bool) (str : Bytes) (n : ℤ) : Prop :=
  ∃ pre number m, (∀ c ∈ pre, isspace c = true) ∧ Magnitude number m ∧
    (str = pre ++ number ∧ n = m ∨ signed = true ∧ str = pre ++ '-'.toUInt8 :: number ∧ n = -m)

/-- `f` returns true if and only if the string denotes an integer from `lo` to `hi`; then `*value` is
that integer, and otherwise it is unchanged. -/
def Parses (f : Bytes → ℤ → Option (Bool × ℤ)) (signed : Bool) (lo hi : ℤ) : Prop :=
  ∀ str value, ∃ returned value', f str value = some (returned, value') ∧
    (returned = true ↔ ∃ n, Denotes signed str n ∧ lo ≤ n ∧ n ≤ hi) ∧
    (∀ n, returned = true → Denotes signed str n → value' = n) ∧
    (returned = false → value' = value)

theorem decimal_snoc (ds : Bytes) (c : UInt8) :
    decimal (ds ++ [c]) = decimal ds * 10 + digitValue c := by
  rw [decimal, List.map_append]
  exact Numeral.value_snoc _ _

theorem decimal_le_append (ds es : Bytes) : decimal ds ≤ decimal (ds ++ es) := by
  induction es generalizing ds with
  | nil => rw [List.append_nil]
  | cons c es ih =>
    rw [List.append_cons]
    have hstep := decimal_snoc ds c
    have hrest := ih (ds ++ [c])
    omega

/-! ### Spaces -/

theorem isspace_of_isdigit {c : UInt8} (h : isdigit c = true) : isspace c = false := by
  have hdigit := (isdigit_iff c).mp h
  rw [Bool.eq_false_iff, Ne, isspace_iff]
  omega

theorem skipSpaces_append {pre : Bytes} (hpre : ∀ c ∈ pre, isspace c = true) (str : Bytes) :
    skipSpaces (pre ++ str) = skipSpaces str := by
  induction pre with
  | nil => rfl
  | cons c pre ih =>
    rw [List.forall_mem_cons] at hpre
    rw [List.cons_append, skipSpaces, if_pos hpre.1]
    exact ih hpre.2

theorem skipSpaces_cons {c : UInt8} (h : isspace c = false) (str : Bytes) :
    skipSpaces (c :: str) = c :: str := by
  rw [skipSpaces, h, if_neg Bool.false_ne_true]

theorem exists_eq_append_skipSpaces (str : Bytes) :
    ∃ pre, (∀ c ∈ pre, isspace c = true) ∧ str = pre ++ skipSpaces str := by
  induction str with
  | nil => exact ⟨[], by simp, rfl⟩
  | cons c str ih =>
    by_cases hc : isspace c = true
    · obtain ⟨pre, hpre, hstr⟩ := ih
      refine ⟨c :: pre, List.forall_mem_cons.mpr ⟨hc, hpre⟩, ?_⟩
      rw [skipSpaces, if_pos hc, List.cons_append, ← hstr]
    · refine ⟨[], by simp, ?_⟩
      rw [skipSpaces, if_neg hc, List.nil_append]

theorem skipSpaces_eq_nil_iff (str : Bytes) :
    skipSpaces str = [] ↔ ∀ c ∈ str, isspace c = true := by
  constructor
  · intro h
    obtain ⟨pre, hpre, hstr⟩ := exists_eq_append_skipSpaces str
    rw [h, List.append_nil] at hstr
    rwa [hstr]
  · intro h
    have hskip := skipSpaces_append h []
    rwa [List.append_nil] at hskip

/-! ### Magnitudes -/

theorem isdigit_safeFirstChar {ds : Bytes} (hne : ds ≠ []) (hds : ∀ c ∈ ds, isdigit c = true)
    (post : Bytes) : isdigit (safeFirstChar (ds ++ post)) = true := by
  cases ds with
  | nil => exact absurd rfl hne
  | cons c ds => exact hds c List.mem_cons_self

/-- Digits end where spaces begin. -/
theorem span_digits {ds post : Bytes} (hds : ∀ c ∈ ds, isdigit c = true)
    (hpost : ∀ c ∈ post, isspace c = true) :
    (ds ++ post).takeWhile isdigit = ds ∧ (ds ++ post).dropWhile isdigit = post := by
  have hstop : post.takeWhile isdigit = [] ∧ post.dropWhile isdigit = post := by
    cases post with
    | nil => exact ⟨rfl, rfl⟩
    | cons c post =>
      have hc : ¬ isdigit c = true := by
        intro hdigit
        have hspace := hpost c List.mem_cons_self
        rw [isspace_of_isdigit hdigit] at hspace
        cases hspace
      exact ⟨List.takeWhile_cons_of_neg hc, List.dropWhile_cons_of_neg hc⟩
  rw [List.takeWhile_append_of_pos hds, List.dropWhile_append_of_pos hds, hstop.1, hstop.2,
    List.append_nil]
  exact ⟨rfl, rfl⟩

/-- A magnitude as the functions look for it. -/
theorem magnitude_iff (str : Bytes) (m : ℕ) :
    Magnitude str m ↔ isdigit (safeFirstChar str) = true ∧ skipSpaces (str.dropWhile isdigit) = [] ∧
      m = decimal (str.takeWhile isdigit) := by
  constructor
  · rintro ⟨ds, post, rfl, hne, hds, hpost, rfl⟩
    obtain ⟨htake, hdrop⟩ := span_digits hds hpost
    rw [htake, hdrop, skipSpaces_eq_nil_iff]
    exact ⟨isdigit_safeFirstChar hne hds post, hpost, rfl⟩
  · rintro ⟨hfirst, hpost, hm⟩
    refine ⟨str.takeWhile isdigit, str.dropWhile isdigit, List.takeWhile_append_dropWhile.symm, ?_,
      fun c hc => List.mem_takeWhile_imp hc, (skipSpaces_eq_nil_iff _).mp hpost, hm⟩
    cases str with
    | nil => exact absurd hfirst (by decide)
    | cons c str =>
      have hc : isdigit c = true := hfirst
      rw [List.takeWhile_cons_of_pos hc]
      exact List.cons_ne_nil _ _

theorem Magnitude.unique {str : Bytes} {m m' : ℕ} (h : Magnitude str m) (h' : Magnitude str m') :
    m = m' :=
  ((magnitude_iff str m).mp h).2.2.trans ((magnitude_iff str m').mp h').2.2.symm

theorem Magnitude.skipSpaces_eq {str : Bytes} {m : ℕ} (h : Magnitude str m) : skipSpaces str = str := by
  have hfirst := ((magnitude_iff str m).mp h).1
  cases str with
  | nil => rfl
  | cons c str => exact skipSpaces_cons (isspace_of_isdigit hfirst) str

/-- Behind the sign stands a magnitude. -/
theorem denotes_iff (signed : Bool) (str : Bytes) (n : ℤ) :
    Denotes signed str n ↔ (∃ m : ℕ, Magnitude (skipSpaces str) m ∧ n = m) ∨
      signed = true ∧ ∃ (number : Bytes) (m : ℕ),
        skipSpaces str = '-'.toUInt8 :: number ∧ Magnitude number m ∧ n = -m := by
  have hminus : isspace '-'.toUInt8 = false := by decide
  constructor
  · rintro ⟨pre, number, m, hpre, hm, ⟨rfl, rfl⟩ | ⟨hsigned, rfl, rfl⟩⟩
    · refine .inl ⟨m, ?_, rfl⟩
      rwa [skipSpaces_append hpre, hm.skipSpaces_eq]
    · refine .inr ⟨hsigned, number, m, ?_, hm, rfl⟩
      rw [skipSpaces_append hpre, skipSpaces_cons hminus]
  · obtain ⟨pre, hpre, hstr⟩ := exists_eq_append_skipSpaces str
    rintro (⟨m, hm, rfl⟩ | ⟨hsigned, number, m, hskip, hm, rfl⟩)
    · exact ⟨pre, _, m, hpre, hm, .inl ⟨hstr, rfl⟩⟩
    · rw [hskip] at hstr
      exact ⟨pre, number, m, hpre, hm, .inr ⟨hsigned, hstr, rfl⟩⟩

theorem not_magnitude_minus (number : Bytes) (m : ℕ) : ¬ Magnitude ('-'.toUInt8 :: number) m := by
  intro h
  have hfirst : isdigit '-'.toUInt8 = true := ((magnitude_iff _ m).mp h).1
  exact absurd hfirst (by decide)

theorem Denotes.unique {signed : Bool} {str : Bytes} {n n' : ℤ} (h : Denotes signed str n)
    (h' : Denotes signed str n') : n = n' := by
  rcases (denotes_iff signed str n).mp h with ⟨m, hm, rfl⟩ | ⟨-, number, m, hskip, hm, rfl⟩
  · rcases (denotes_iff signed str n').mp h' with ⟨m', hm', rfl⟩ | ⟨-, number', m', hskip', -, -⟩
    · rw [hm.unique hm']
    · rw [hskip'] at hm
      exact absurd hm (not_magnitude_minus number' m)
  · rcases (denotes_iff signed str n').mp h' with ⟨m', hm', -⟩ | ⟨-, number', m', hskip', hm', rfl⟩
    · rw [hskip] at hm'
      exact absurd hm' (not_magnitude_minus number m')
    · rw [hskip] at hskip'
      obtain rfl := (List.cons.inj hskip').2
      rw [hm.unique hm']

theorem Parses.accepts {f : Bytes → ℤ → Option (Bool × ℤ)} {signed : Bool} {lo hi : ℤ}
    (hf : Parses f signed lo hi) {str : Bytes} {n : ℤ} (hn : Denotes signed str n) (hlo : lo ≤ n)
    (hhi : n ≤ hi) (value : ℤ) : f str value = some (true, n) := by
  obtain ⟨returned, value', hrun, hreturned, hvalue, -⟩ := hf str value
  have htrue : returned = true := hreturned.mpr ⟨n, hn, hlo, hhi⟩
  rw [hrun, hvalue n htrue hn, htrue]

/-! ### One digit -/

/-- What a loop body promises: the number grows by a digit, unless it would pass `limit`, and nothing
leaves its type; `σ` is the sign of the loop's result. -/
def Steps (step : ℤ → UInt8 → Option (Option ℤ)) (σ : ℤ) (limit : ℕ) : Prop :=
  ∀ (m : ℕ) (c : UInt8), m ≤ limit → isdigit c = true →
    step (σ * m) c = some (if m * 10 + digitValue c ≤ limit
      then some (σ * (m * 10 + digitValue c : ℕ)) else none)

theorem int64_eq {x : ℤ} (hlo : kint64min ≤ x) (hhi : x ≤ kint64max) : int64 x = some x :=
  if_pos ⟨hlo, hhi⟩

theorem uint64_eq {x : ℤ} (hlo : 0 ≤ x) (hhi : x ≤ kuint64max) : uint64 x = some x :=
  if_pos ⟨hlo, hhi⟩

/-- A digit, as the code and as its value. -/
theorem digit_eq {c : UInt8} (hc : isdigit c = true) :
    digit c = digitValue c ∧ (c.toNat : ℤ) = digitValue c + 48 ∧ digitValue c ≤ 9 := by
  have hrange := (isdigit_iff c).mp hc
  have hvalue : digitValue c = c.toNat - 48 := rfl
  have hdigit : digit c = c.toNat - 48 := rfl
  omega

theorem steps_strto64 : Steps (strto64Step kint64max) 1 (2 ^ 63 - 1) := by
  intro m c hm hc
  obtain ⟨hdigit, -, hle⟩ := digit_eq hc
  have hmax : kint64max = 2 ^ 63 - 1 := rfl
  have hmin : kint64min = -2 ^ 63 := rfl
  have hroom : int64 (kint64max - digitValue c) = some (kint64max - digitValue c) :=
    int64_eq (by omega) (by omega)
  have htest : (kint64max - digitValue c).tdiv 10 < m ↔ ¬ m * 10 + digitValue c ≤ 2 ^ 63 - 1 := by
    rw [Int.tdiv_eq_ediv_of_nonneg (by omega)]
    omega
  rw [strto64Step, hdigit, one_mul, hroom, Option.bind_eq_bind, Option.bind_some]
  by_cases hfits : m * 10 + digitValue c ≤ 2 ^ 63 - 1
  · rw [if_neg (fun h => htest.mp h hfits), if_pos hfits, int64_eq (by omega) (by omega),
      Option.bind_some, int64_eq (by omega) (by omega), one_mul]
    push_cast
    rfl
  · rw [if_pos (htest.mpr hfits), if_neg hfits]
    rfl

theorem steps_strto64_negative : Steps (strto64NegativeStep kint64min) (-1) (2 ^ 63) := by
  intro m c hm hc
  obtain ⟨hdigit, -, hle⟩ := digit_eq hc
  have hmax : kint64max = 2 ^ 63 - 1 := rfl
  have hmin : kint64min = -2 ^ 63 := rfl
  have hroom : int64 (kint64min + digitValue c) = some (kint64min + digitValue c) :=
    int64_eq (by omega) (by omega)
  have htest : (kint64min + digitValue c).tdiv 10 > -m ↔ ¬ m * 10 + digitValue c ≤ 2 ^ 63 := by
    -- the quotient is rounded towards zero
    have hneg : kint64min + digitValue c = -(2 ^ 63 - digitValue c) := by omega
    rw [hneg, Int.neg_tdiv, Int.tdiv_eq_ediv_of_nonneg (by omega)]
    omega
  rw [strto64NegativeStep, hdigit, neg_one_mul, hroom, Option.bind_eq_bind, Option.bind_some]
  by_cases hfits : m * 10 + digitValue c ≤ 2 ^ 63
  · rw [if_neg (fun h => htest.mp h hfits), if_pos hfits, int64_eq (by omega) (by omega),
      Option.bind_some, int64_eq (by omega) (by omega), neg_one_mul]
    push_cast
    rw [neg_add, neg_mul]
    rfl
  · rw [if_pos (htest.mpr hfits), if_neg hfits]
    rfl

theorem steps_strtou64 : Steps strtou64Step 1 (2 ^ 64 - 1) := by
  intro m c hm hc
  obtain ⟨hdigit, -, hle⟩ := digit_eq hc
  have hmax : kuint64max = 2 ^ 64 - 1 := rfl
  have hroom : uint64 (kuint64max - digitValue c) = some (kuint64max - digitValue c) :=
    uint64_eq (by omega) (by omega)
  have htest : (kuint64max - digitValue c) / 10 < m ↔ ¬ m * 10 + digitValue c ≤ 2 ^ 64 - 1 := by
    omega
  rw [strtou64Step, hdigit, one_mul, hroom, Option.bind_eq_bind, Option.bind_some]
  by_cases hfits : m * 10 + digitValue c ≤ 2 ^ 64 - 1
  · rw [if_neg (fun h => htest.mp h hfits), if_pos hfits, uint64_eq (by omega) (by omega),
      Option.bind_some, uint64_eq (by omega) (by omega), one_mul]
    push_cast
    rfl
  · rw [if_pos (htest.mpr hfits), if_neg hfits]
    rfl

/-- In `int64` there is room for a digit behind 32 bits. -/
theorem steps_strto32 {vmax : ℕ} (hvmax : vmax < 2 ^ 32) : Steps (strto32Step vmax) 1 vmax := by
  intro m c hm hc
  obtain ⟨-, hchar, hle⟩ := digit_eq hc
  have hmax : kint64max = 2 ^ 63 - 1 := rfl
  have hmin : kint64min = -2 ^ 63 := rfl
  have hzero : (('0'.toNat : ℕ) : ℤ) = 48 := rfl
  have hresult : (m : ℤ) * 10 + c.toNat - '0'.toNat = (m * 10 + digitValue c : ℕ) := by omega
  rw [strto32Step, one_mul, int64_eq (by omega) (by omega), Option.bind_eq_bind, Option.bind_some,
    int64_eq (by omega) (by omega), Option.bind_some, int64_eq (by omega) (by omega),
    Option.bind_some, hresult]
  by_cases hfits : m * 10 + digitValue c ≤ vmax
  · rw [if_neg (by omega), if_pos hfits, one_mul]
    rfl
  · rw [if_pos (by omega), if_neg hfits]
    rfl

/-! ### The whole number -/

section Scan

variable {step : ℤ → UInt8 → Option (Option ℤ)} {σ : ℤ} {limit : ℕ} (hstep : Steps step σ limit)
include hstep

/-- **The loop**, from the digits `done` on. -/
theorem digitsLoop_eq (str done : Bytes) (hdone : decimal done ≤ limit) :
    digitsLoop step str (σ * decimal done)
      = some (if decimal (done ++ str.takeWhile isdigit) ≤ limit
        then some (σ * decimal (done ++ str.takeWhile isdigit), str.dropWhile isdigit) else none) := by
  induction str generalizing done with
  | nil => rw [digitsLoop, List.takeWhile_nil, List.append_nil, if_pos hdone, List.dropWhile_nil]
  | cons c str ih =>
    by_cases hc : isdigit c = true
    · rw [digitsLoop, if_pos hc, hstep _ c hdone hc, ← decimal_snoc, List.takeWhile_cons_of_pos hc,
        List.dropWhile_cons_of_pos hc, List.append_cons done c (str.takeWhile isdigit)]
      by_cases hfits : decimal (done ++ [c]) ≤ limit
      · rw [if_pos hfits]
        exact ih (done ++ [c]) hfits
      · -- more digits make no smaller number
        have hmore := decimal_le_append (done ++ [c]) (str.takeWhile isdigit)
        rw [if_neg hfits, if_neg (by omega)]
    · rw [digitsLoop, if_neg hc, List.takeWhile_cons_of_neg hc, List.dropWhile_cons_of_neg hc,
        List.append_nil, if_pos hdone]

theorem scanNumber_of_magnitude {str : Bytes} {m : ℕ} (hm : Magnitude str m) :
    scanNumber step str = some (if m ≤ limit then some (σ * m) else none) := by
  obtain ⟨hfirst, hpost, rfl⟩ := (magnitude_iff str m).mp hm
  have hloop := digitsLoop_eq hstep str [] (Nat.zero_le limit)
  rw [show σ * (decimal [] : ℕ) = 0 from mul_zero σ, List.nil_append] at hloop
  rw [scanNumber, if_pos hfirst, hloop]
  by_cases hfits : decimal (str.takeWhile isdigit) ≤ limit
  · rw [if_pos hfits, if_pos hfits]
    show some (if skipSpaces (str.dropWhile isdigit) = [] then _ else none) = _
    rw [if_pos hpost]
  · rw [if_neg hfits, if_neg hfits]

theorem scanNumber_of_not_magnitude {str : Bytes} (hm : ∀ m, ¬ Magnitude str m) :
    scanNumber step str = some none := by
  by_cases hfirst : isdigit (safeFirstChar str) = true
  · have hpost : skipSpaces (str.dropWhile isdigit) ≠ [] := by
      intro hpost
      exact hm _ ((magnitude_iff str _).mpr ⟨hfirst, hpost, rfl⟩)
    have hloop := digitsLoop_eq hstep str [] (Nat.zero_le limit)
    rw [show σ * (decimal [] : ℕ) = 0 from mul_zero σ, List.nil_append] at hloop
    rw [scanNumber, if_pos hfirst, hloop]
    by_cases hfits : decimal (str.takeWhile isdigit) ≤ limit
    · rw [if_pos hfits]
      show some (if skipSpaces (str.dropWhile isdigit) = [] then _ else none) = _
      rw [if_neg hpost]
    · rw [if_neg hfits]
  · rw [scanNumber, if_neg hfirst]

end Scan

/-! ### The functions -/

/-- What is promised of what stands behind a sign. -/
structure Scans (scan : Bytes → Option (Option ℤ)) (σ : ℤ) (limit : ℕ) : Prop where
  magnitude : ∀ {str m}, Magnitude str m → scan str = some (if m ≤ limit then some (σ * m) else none)
  other : ∀ {str}, (∀ m, ¬ Magnitude str m) → scan str = some none

theorem Steps.scans {step : ℤ → UInt8 → Option (Option ℤ)} {σ : ℤ} {limit : ℕ}
    (hstep : Steps step σ limit) : Scans (scanNumber step) σ limit :=
  ⟨scanNumber_of_magnitude hstep, scanNumber_of_not_magnitude hstep⟩

/-- What is promised of a function, string by string. -/
theorem parses_of {f : Bytes → ℤ → Option (Bool × ℤ)} {signed : Bool} {lo hi : ℤ}
    (hnumber : ∀ str value n, Denotes signed str n →
      f str value = some (store value (if lo ≤ n ∧ n ≤ hi then some n else none)))
    (hother : ∀ str value, (∀ n, ¬ Denotes signed str n) → f str value = some (store value none)) :
    Parses f signed lo hi := by
  intro str value
  by_cases hn : ∃ n, Denotes signed str n
  · obtain ⟨n, hn⟩ := hn
    have hf := hnumber str value n hn
    by_cases hrange : lo ≤ n ∧ n ≤ hi
    · rw [if_pos hrange] at hf
      refine ⟨true, n, hf, ?_, ?_, ?_⟩
      · exact iff_of_true rfl ⟨n, hn, hrange⟩
      · exact fun n' _ hn' => hn.unique hn'
      · exact fun h => nomatch h
    · rw [if_neg hrange] at hf
      refine ⟨false, value, hf, ?_, ?_, ?_⟩
      · refine iff_of_false Bool.false_ne_true ?_
        rintro ⟨n', hn', hrange'⟩
        rw [hn'.unique hn] at hrange'
        exact hrange hrange'
      · exact fun _ h => nomatch h
      · exact fun _ => rfl
  · refine ⟨false, value, hother str value fun n hn' => hn ⟨n, hn'⟩, ?_, ?_, ?_⟩
    · exact iff_of_false Bool.false_ne_true fun ⟨n, hn', _⟩ => hn ⟨n, hn'⟩
    · exact fun _ h => nomatch h
    · exact fun _ => rfl

theorem parses_unsigned {f : Bytes → ℤ → Option (Bool × ℤ)} {scan : Bytes → Option (Option ℤ)}
    {limit : ℕ} (hscan : Scans scan 1 limit)
    (hf : ∀ str value, f str value = (scan (skipSpaces str)).map (store value)) :
    Parses f false 0 limit := by
  refine parses_of ?_ ?_
  · intro str value n hn
    rcases (denotes_iff false str n).mp hn with ⟨m, hm, rfl⟩ | ⟨hsigned, -⟩
    · rw [hf, hscan.magnitude hm, one_mul, Option.map_some]
      simp only [Int.natCast_nonneg, true_and, Int.ofNat_le]
    · cases hsigned
  · intro str value hnone
    rw [hf, hscan.other fun m hm => hnone m ((denotes_iff false str m).mpr (.inl ⟨m, hm, rfl⟩)),
      Option.map_some]

theorem parses_signed {f : Bytes → ℤ → Option (Bool × ℤ)} {neg pos : Bytes → Option (Option ℤ)}
    {limit limit' : ℕ} (hneg : Scans neg (-1) limit') (hpos : Scans pos 1 limit)
    (hminus : ∀ str number value, skipSpaces str = '-'.toUInt8 :: number →
      f str value = (neg number).map (store value))
    (hplain : ∀ str value, (∀ number, skipSpaces str ≠ '-'.toUInt8 :: number) →
      f str value = (pos (skipSpaces str)).map (store value)) :
    Parses f true (-limit') limit := by
  refine parses_of ?_ ?_
  · intro str value n hn
    rcases (denotes_iff true str n).mp hn with ⟨m, hm, rfl⟩ | ⟨-, number, m, hskip, hm, rfl⟩
    · have hno : ∀ number, skipSpaces str ≠ '-'.toUInt8 :: number := by
        intro number hskip
        rw [hskip] at hm
        exact not_magnitude_minus number m hm
      have hrange : (-(limit' : ℤ) ≤ m ∧ (m : ℤ) ≤ limit) ↔ m ≤ limit := by omega
      rw [hplain str value hno, hpos.magnitude hm, one_mul, Option.map_some]
      simp only [hrange]
    · have hrange : (-(limit' : ℤ) ≤ -m ∧ -(m : ℤ) ≤ limit) ↔ m ≤ limit' := by omega
      rw [hminus str number value hskip, hneg.magnitude hm, neg_one_mul, Option.map_some]
      simp only [hrange]
  · intro str value hnone
    by_cases hskip : ∃ number, skipSpaces str = '-'.toUInt8 :: number
    · obtain ⟨number, hskip⟩ := hskip
      have hno : ∀ m, ¬ Magnitude number m := fun m hm =>
        hnone (-m) ((denotes_iff true str (-m)).mpr (.inr ⟨rfl, number, m, hskip, hm, rfl⟩))
      rw [hminus str number value hskip, hneg.other hno, Option.map_some]
    · have hno : ∀ m, ¬ Magnitude (skipSpaces str) m := fun m hm =>
        hnone m ((denotes_iff true str m).mpr (.inl ⟨m, hm, rfl⟩))
      rw [hplain str value (not_exists.mp hskip), hpos.other hno, Option.map_some]

theorem consume_minus (number : Bytes) :
    consume ['-'.toUInt8] ('-'.toUInt8 :: number) = (true, number) := by
  rw [consume, if_pos (by simp)]
  rfl

theorem consume_of_no_minus {str : Bytes} (h : ∀ number, str ≠ '-'.toUInt8 :: number) :
    consume ['-'.toUInt8] str = (false, str) := by
  rw [consume, if_neg]
  intro hprefix
  obtain ⟨number, hstr⟩ := List.isPrefixOf_iff_prefix.mp hprefix
  exact h number hstr.symm

theorem safeStrto64_parses : Parses safeStrto64 true (-2 ^ 63) (2 ^ 63 - 1) := by
  refine parses_signed steps_strto64_negative.scans steps_strto64.scans ?_ ?_
  · intro str number value hskip
    rw [safeStrto64, hskip, consume_minus, Option.map_eq_bind]
    rfl
  · intro str value hskip
    rw [safeStrto64, consume_of_no_minus hskip, Option.map_eq_bind]
    rfl

theorem safeStrtou64_parses : Parses safeStrtou64 false 0 (2 ^ 64 - 1) := by
  refine parses_unsigned steps_strtou64.scans ?_
  intro str value
  rw [safeStrtou64, Option.map_eq_bind]
  rfl

/-- What is done to the result afterwards. -/
theorem Scans.bind {scan : Bytes → Option (Option ℤ)} {σ σ' : ℤ} {limit : ℕ} (hscan : Scans scan σ limit)
    {post : Option ℤ → Option (Option ℤ)} (hnone : post none = some none)
    (hsome : ∀ m : ℕ, m ≤ limit → post (some (σ * m)) = some (some (σ' * m))) :
    Scans (fun str => scan str >>= post) σ' limit := by
  refine ⟨?_, ?_⟩
  · intro str m hm
    show (scan str >>= post) = _
    rw [hscan.magnitude hm, Option.bind_eq_bind, Option.bind_some]
    split_ifs with hfits
    · exact hsome m hfits
    · exact hnone
  · intro str hm
    show (scan str >>= post) = _
    rw [hscan.other hm]
    exact hnone

/-- `static_cast<int32>` changes no result of the loop. -/
theorem scans_toInt32 {vmax : ℕ} {σ : ℤ} (hσ : σ = 1 ∧ vmax < 2 ^ 31 ∨ σ = -1 ∧ vmax ≤ 2 ^ 31) :
    Scans (fun str => scanNumber (strto32Step vmax) str >>= toInt32 σ) σ vmax := by
  have hstep : Steps (strto32Step vmax) 1 vmax := steps_strto32 (by omega)
  refine hstep.scans.bind rfl ?_
  intro m hm
  have hmax : kint64max = 2 ^ 63 - 1 := rfl
  have hmin : kint64min = -2 ^ 63 := rfl
  have hrange : -2 ^ 31 ≤ σ * m ∧ σ * m < 2 ^ 31 := by
    rcases hσ with ⟨rfl, hvmax⟩ | ⟨rfl, hvmax⟩ <;> omega
  have hcast : (σ * m).bmod (2 ^ 32) = σ * m := Int.bmod_eq_of_le (by omega) (by omega)
  rw [toInt32, one_mul, mul_comm, int64_eq (by omega) (by omega)]
  show some (some ((σ * m).bmod (2 ^ 32))) = _
  rw [hcast]

theorem safeStrto32_parses : Parses safeStrto32 true (-2 ^ 31) (2 ^ 31 - 1) := by
  have hneg := @scans_toInt32 (2 ^ 31) (-1) (.inr ⟨rfl, le_rfl⟩)
  have hpos := @scans_toInt32 (2 ^ 31 - 1) 1 (.inl ⟨rfl, by omega⟩)
  refine parses_signed hneg hpos ?_ ?_
  · intro str number value hskip
    rw [Option.map_eq_bind, Option.bind_eq_bind, Option.bind_assoc, safeStrto32, hskip, consume_minus]
    rfl
  · intro str value hskip
    rw [Option.map_eq_bind, Option.bind_eq_bind, Option.bind_assoc, safeStrto32,
      consume_of_no_minus hskip]
    rfl

/-- Nor does `static_cast<uint32>`. -/
theorem scans_strtou32 :
    Scans (fun str => scanNumber (strto32Step kuint32max) str >>= fun number =>
      some (number.map (· % 2 ^ 32))) 1 (2 ^ 32 - 1) := by
  have hstep : Steps (strto32Step kuint32max) 1 (2 ^ 32 - 1) :=
    @steps_strto32 (2 ^ 32 - 1) (by omega)
  refine hstep.scans.bind rfl ?_
  intro m hm
  have hmod : (m : ℤ) % 2 ^ 32 = m := by omega
  rw [one_mul, Option.map_some, hmod]

theorem safeStrtou32_parses : Parses safeStrtou32 false 0 (2 ^ 32 - 1) := by
  refine parses_unsigned scans_strtou32 ?_
  intro str value
  rw [Option.map_eq_bind, Option.bind_eq_bind, Option.bind_assoc, safeStrtou32]
  rfl

/-- **Each function accepts what denotes an integer of its type**, and no operation leaves its type. -/
theorem safeStrto_parses :
    Parses safeStrto32 true (-2 ^ 31) (2 ^ 31 - 1) ∧ Parses safeStrtou32 false 0 (2 ^ 32 - 1) ∧
      Parses safeStrto64 true (-2 ^ 63) (2 ^ 63 - 1) ∧ Parses safeStrtou64 false 0 (2 ^ 64 - 1) :=
  ⟨safeStrto32_parses, safeStrtou32_parses, safeStrto64_parses, safeStrtou64_parses⟩

end LearnNetlib.Strings
