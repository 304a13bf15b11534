import Mathlib.Data.Nat.Basic
import Mathlib.Data.List.Basic
import Mathlib.Data.List.Induction
import Mathlib.Data.List.Lex
import Mathlib.Data.Nat.Digits.Lemmas
import Mathlib.Tactic.Common
import Mathlib.Tactic.Ring

/-!
# Numerals

The digits of a number in base `b`, most significant first: the last `k` of them, or as many as it
needs.

* `numeral` / `value` — writing and reading; **`value_numeral`**: what is read back is the number
  modulo `b ^ k`; **`numeral_value`**: what has been read is written again;
* **`numeral_lt_numeral`** — numerals of numbers below `b ^ k` are in the lexicographic order of the
  numbers;
* `numeral_mul_self` — a digit in base `b * b` is two digits in base `b`;
* `shortest` — no leading zeros; `value_shortest` and **`eq_shortest`**: each number has one such numeral.
-/

namespace LearnNetlib.Numeral

variable (b : ℕ)

/-- The last `k` digits of `n`. -/
def numeral : ℕ → ℕ → List ℕ
  | 0, _ => []
  | k + 1, n => numeral k (n / b) ++ [n % b]

/-- The number that digits spell. -/
def value (ds : List ℕ) : ℕ := ds.foldl (fun acc d => acc * b + d) 0

variable {b}

@[simp] theorem numeral_length (k n : ℕ) : (numeral b k n).length = k := by
  induction k generalizing n with
  | zero => rfl
  | succ k ih => rw [numeral, List.length_append, ih, List.length_singleton]

theorem numeral_lt (hb : 0 < b) (k n : ℕ) : ∀ d ∈ numeral b k n, d < b := by
  induction k generalizing n with
  | zero => exact fun d hd => absurd hd List.not_mem_nil
  | succ k ih =>
    intro d hd
    rcases List.mem_append.mp hd with hd | hd
    · exact ih _ d hd
    · rw [List.mem_singleton.mp hd]
      exact Nat.mod_lt n hb

theorem numeral_zero (k : ℕ) : numeral b k 0 = List.replicate k 0 := by
  induction k with
  | zero => rfl
  | succ k ih => rw [numeral, Nat.zero_div, Nat.zero_mod, ih, ← List.replicate_succ']

/-- **Reading back.** -/
theorem value_numeral (k n : ℕ) : value b (numeral b k n) = n % b ^ k := by
  induction k generalizing n with
  | zero => simp [numeral, value, Nat.mod_one]
  | succ k ih =>
    have hvalue := ih (n / b)
    rw [value] at hvalue
    rw [numeral, value, List.foldl_append, hvalue, List.foldl_cons, List.foldl_nil, pow_succ',
      Nat.mod_mul]
    ring

theorem value_snoc (ds : List ℕ) (d : ℕ) : value b (ds ++ [d]) = value b ds * b + d := by
  rw [value, List.foldl_append]
  rfl

theorem value_append (ds es : List ℕ) :
    value b (ds ++ es) = value b ds * b ^ es.length + value b es := by
  induction es using List.reverseRecOn with
  | nil => rw [List.append_nil, List.length_nil, pow_zero, mul_one]; rfl
  | append_singleton es e ih =>
    rw [← List.append_assoc, value_snoc, ih, value_snoc, List.length_append, List.length_singleton,
      pow_succ]
    ring

theorem value_lt {ds : List ℕ} (hds : ∀ d ∈ ds, d < b) : value b ds < b ^ ds.length := by
  induction ds using List.reverseRecOn with
  | nil => exact Nat.one_pos
  | append_singleton ds d ih =>
    have hd : d < b := hds d (List.mem_append_right _ List.mem_cons_self)
    have hvalue := ih fun e he => hds e (List.mem_append_left _ he)
    rw [value_snoc, List.length_append, List.length_singleton, pow_succ]
    calc value b ds * b + d < value b ds * b + b := Nat.add_lt_add_left hd _
      _ = (value b ds + 1) * b := (Nat.succ_mul _ _).symm
      _ ≤ b ^ ds.length * b := Nat.mul_le_mul_right b hvalue

theorem value_replicate_zero (k : ℕ) : value b (List.replicate k 0) = 0 := by
  induction k with
  | zero => rfl
  | succ k ih => rw [List.replicate_succ', value_snoc, ih, zero_mul]

/-- Only zeros spell zero. -/
theorem value_eq_zero_iff (hb : 0 < b) (ds : List ℕ) : value b ds = 0 ↔ ∀ d ∈ ds, d = 0 := by
  induction ds using List.reverseRecOn with
  | nil => exact iff_of_true rfl fun d hd => absurd hd List.not_mem_nil
  | append_singleton ds d ih =>
    rw [value_snoc, Nat.add_eq_zero_iff, Nat.mul_eq_zero, or_iff_left hb.ne', ih,
      List.forall_mem_append, List.forall_mem_singleton]

/-- **Writing what has been read.** -/
theorem numeral_value {ds : List ℕ} (hds : ∀ d ∈ ds, d < b) : numeral b ds.length (value b ds) = ds := by
  induction ds using List.reverseRecOn with
  | nil => rfl
  | append_singleton ds d ih =>
    have hd : d < b := hds d (List.mem_append_right _ List.mem_cons_self)
    have hpos := Nat.zero_lt_of_lt hd
    rw [List.length_append, List.length_singleton, numeral, value_snoc, Nat.mul_comm,
      Nat.mul_add_div hpos, Nat.div_eq_of_lt hd, Nat.add_zero, Nat.mul_add_mod, Nat.mod_eq_of_lt hd,
      ih fun e he => hds e (List.mem_append_left _ he)]

/-- Two digits for one. -/
theorem numeral_mul_self (k n : ℕ) :
    numeral b (2 * k) n = (numeral (b * b) k n).flatMap fun d => [d / b, d % b] := by
  induction k generalizing n with
  | zero => rfl
  | succ k ih =>
    rw [show 2 * (k + 1) = 2 * k + 1 + 1 by ring, numeral, numeral, ih, numeral, List.flatMap_append,
      Nat.div_div_eq_div_mul]
    simp only [List.append_assoc, List.flatMap_cons, List.flatMap_nil, List.append_nil,
      List.cons_append, List.nil_append]
    rw [Nat.mod_mul_right_div_self, Nat.mod_mul_right_mod]

/-- Digits written with characters and read again, or the other way round. -/
theorem map_map_of_forall {α β : Type*} {f : α → β} {g : β → α} {xs : List α} (h : ∀ x ∈ xs, g (f x) = x) :
    (xs.map f).map g = xs := by
  rw [List.map_map]
  conv_rhs => rw [← List.map_id xs]
  exact List.map_congr_left h

/-! ### Order -/

/-- Behind prefixes of one length. -/
theorem append_lt_append_iff {α : Type*} [LinearOrder α] {as bs : List α}
    (h : as.length = bs.length) (cs ds : List α) :
    as ++ cs < bs ++ ds ↔ as < bs ∨ as = bs ∧ cs < ds := by
  induction as generalizing bs with
  | nil =>
    obtain rfl := List.length_eq_zero_iff.mp h.symm
    simp
  | cons a as ih =>
    cases bs with
    | nil => exact absurd h (by simp)
    | cons b bs =>
      rw [List.cons_append, List.cons_append, List.cons_lt_cons_iff, List.cons_lt_cons_iff,
        ih (Nat.succ.inj h), List.cons.injEq]
      tauto

/-- What keeps the order of the elements keeps the order of the lists. -/
theorem map_lt_map {α β : Type*} [LT α] [LT β] {f : α → β} {as bs : List α}
    (hf : ∀ a ∈ as, ∀ b ∈ bs, a < b → f a < f b) (h : as < bs) : as.map f < bs.map f := by
  induction as generalizing bs with
  | nil =>
    cases bs with
    | nil => exact absurd h (List.not_lt_nil _)
    | cons b bs => exact List.nil_lt_cons _ _
  | cons a as ih =>
    cases bs with
    | nil => exact absurd h (List.not_lt_nil _)
    | cons b bs =>
      rw [List.map_cons, List.map_cons, List.cons_lt_cons_iff]
      rcases List.cons_lt_cons_iff.mp h with hlt | ⟨rfl, hlt⟩
      · exact .inl (hf a List.mem_cons_self b List.mem_cons_self hlt)
      · refine .inr ⟨rfl, ih (fun x hx y hy => ?_) hlt⟩
        exact hf x (List.mem_cons_of_mem _ hx) y (List.mem_cons_of_mem _ hy)

/-- **Numerals of one width are in the order of the numbers.** -/
theorem numeral_lt_numeral {k n m : ℕ} (h : n < m) (hm : m < b ^ k) :
    numeral b k n < numeral b k m := by
  induction k generalizing n m with
  | zero =>
    rw [pow_zero] at hm
    omega
  | succ k ih =>
    have hm' : m / b < b ^ k := Nat.div_lt_of_lt_mul (by rwa [pow_succ'] at hm)
    rw [numeral, numeral, append_lt_append_iff (by rw [numeral_length, numeral_length])]
    rcases (Nat.div_le_div_right h.le).lt_or_eq with hlt | heq
    · exact .inl (ih hlt hm')
    · -- all digits but the last agree
      have hn := Nat.div_add_mod n b
      have hm := Nat.div_add_mod m b
      rw [heq] at hn ⊢
      refine .inr ⟨rfl, List.cons_lt_cons_iff.mpr (.inl ?_)⟩
      omega

/-! ### As many digits as needed -/

/-- The digits of `n` without leading zeros; zero has one digit. -/
def shortest (b n : ℕ) : List ℕ := if n = 0 then [0] else (Nat.digits b n).reverse

theorem value_eq_ofDigits (ds : List ℕ) : value b ds = Nat.ofDigits b ds.reverse := by
  rw [value, Nat.ofDigits_eq_foldr, List.foldr_reverse]
  congr 1
  funext acc d
  rw [Nat.cast_id, add_comm, mul_comm]

theorem shortest_ne_nil (n : ℕ) : shortest b n ≠ [] := by
  rw [shortest]
  split_ifs with hn
  · exact List.cons_ne_nil _ _
  · rw [Ne, List.reverse_eq_nil_iff, Nat.digits_eq_nil_iff_eq_zero]
    exact hn

theorem value_zero : value b [0] = 0 := by
  rw [value, List.foldl_cons, List.foldl_nil, zero_mul]

theorem value_shortest (n : ℕ) : value b (shortest b n) = n := by
  rw [shortest]
  split_ifs with hn
  · rw [hn, value_zero]
  · rw [value_eq_ofDigits, List.reverse_reverse, Nat.ofDigits_digits]

section Base

variable (hb : 1 < b)
include hb

theorem shortest_lt (n : ℕ) : ∀ d ∈ shortest b n, d < b := by
  intro d hd
  rw [shortest] at hd
  split_ifs at hd with hn
  · rw [List.mem_singleton.mp hd]
    exact Nat.zero_lt_of_lt hb
  · exact Nat.digits_lt_base hb (List.mem_reverse.mp hd)

theorem lt_pow_length (n : ℕ) : n < b ^ (shortest b n).length := by
  have hvalue := value_lt (shortest_lt hb n)
  rwa [value_shortest] at hvalue

theorem length_shortest_le {n k : ℕ} (hk : 0 < k) (hn : n < b ^ k) : (shortest b n).length ≤ k := by
  rw [shortest]
  split_ifs
  · exact hk
  · rw [List.length_reverse]
    exact (Nat.digits_length_le_iff hb n).mpr hn

/-- The last digit, and the number without it. -/
theorem shortest_eq_append (n : ℕ) :
    shortest b n = (if n / b = 0 then [] else shortest b (n / b)) ++ [n % b] := by
  by_cases hn : n = 0
  · rw [hn, Nat.zero_div, if_pos rfl, Nat.zero_mod]
    rfl
  · rw [shortest, if_neg hn, Nat.digits_def' hb (Nat.pos_of_ne_zero hn), List.reverse_cons]
    by_cases hq : n / b = 0
    · rw [if_pos hq, hq, Nat.digits_zero, List.reverse_nil]
    · rw [if_neg hq, shortest, if_neg hq]

/-- Behind zeros the numeral of a fixed width. -/
theorem numeral_eq_append {n k : ℕ} (hk : (shortest b n).length ≤ k) :
    numeral b k n = List.replicate (k - (shortest b n).length) 0 ++ shortest b n := by
  have hlength : (List.replicate (k - (shortest b n).length) 0 ++ shortest b n).length = k := by
    rw [List.length_append, List.length_replicate]
    omega
  have hvalue : value b (List.replicate (k - (shortest b n).length) 0 ++ shortest b n) = n := by
    rw [value_append, value_replicate_zero, zero_mul, zero_add, value_shortest]
  have hdigits : ∀ d ∈ List.replicate (k - (shortest b n).length) 0 ++ shortest b n, d < b := by
    intro d hd
    rcases List.mem_append.mp hd with hd | hd
    · rw [List.eq_of_mem_replicate hd]
      exact Nat.zero_lt_of_lt hb
    · exact shortest_lt hb n d hd
  have hnumeral := numeral_value hdigits
  rwa [hlength, hvalue] at hnumeral

/-- As many digits as the number is large. -/
theorem pow_le_of_length {n k : ℕ} (hk : k + 1 ≤ (shortest b n).length) (hn : 0 < k ∨ n ≠ 0) :
    b ^ k ≤ n := by
  by_contra hlt
  rcases Nat.eq_zero_or_pos k with rfl | hpos
  · rw [pow_zero] at hlt
    omega
  · have hle := length_shortest_le hb hpos (Nat.not_le.mp hlt)
    omega

omit hb in
/-- A leading zero stands alone. -/
theorem shortest_of_head_zero {n : ℕ} (h : (shortest b n).head? = some 0) : shortest b n = [0] := by
  rw [shortest] at h ⊢
  split_ifs at h ⊢ with hn
  · rfl
  · have hne : Nat.digits b n ≠ [] := Nat.digits_ne_nil_iff_ne_zero.mpr hn
    rw [List.head?_reverse, List.getLast?_eq_some_getLast hne] at h
    exact absurd (Option.some.inj h) (Nat.getLast_digit_ne_zero b hn)

/-- **There is one numeral without leading zeros.** -/
theorem eq_shortest {ds : List ℕ} (hne : ds ≠ []) (hds : ∀ d ∈ ds, d < b)
    (hzero : ds.head? = some 0 → ds = [0]) : ds = shortest b (value b ds) := by
  by_cases hhead : ds.head? = some 0
  · rw [hzero hhead, value_zero, shortest, if_pos rfl]
  · have hlast : ∀ h : ds.reverse ≠ [], ds.reverse.getLast h ≠ 0 := by
      intro h hlast
      rw [List.getLast_reverse] at hlast
      rw [List.head?_eq_some_head hne, hlast] at hhead
      exact hhead rfl
    have hdigits : Nat.digits b (value b ds) = ds.reverse := by
      rw [value_eq_ofDigits]
      exact Nat.digits_ofDigits b hb ds.reverse (fun d hd => hds d (List.mem_reverse.mp hd)) hlast
    have hvalue : value b ds ≠ 0 := by
      intro h
      rw [h, Nat.digits_zero] at hdigits
      exact hne (List.reverse_eq_nil_iff.mp hdigits.symm)
    rw [shortest, if_neg hvalue, hdigits, List.reverse_reverse]

end Base

end LearnNetlib.Numeral
