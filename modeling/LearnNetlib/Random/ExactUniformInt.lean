import LearnNetlib.Foundations.RejectionSampling
import LearnNetlib.Random.WeightedPicker
import Mathlib.Data.FinEnum
import Mathlib.Data.BitVec

/-!
# `random::ExactUniformInt`

* `exactUniformInt` — the code of `base/random/exact_uniform_int.h`, on words of any width;
  `unbiasedUniform` — the same on an `int32`, from `base/random/weighted_picker.cc`;
* `settle` — what the code makes of one draw; the calls are rejection sampling by it;
* `card_settle` — the draws that settle to one result;
* **`exactUniformInt_uniform`** — the results are the numbers below `n`, each the image of equally many
  draws.
-/

namespace LearnNetlib.Random

open LearnNetlib.Loops LearnNetlib.RejectionSampling

/-! ### The code -/

/-- How a call may fail to return: a `CHECK` fails, or all draws so far were rejected. -/
inductive DrawFailure
  | checkFailed
  | stillDrawing
  deriving Repr, DecidableEq

variable {b : ℕ}

/-- One turn of `do { rnd = random(); } while (rnd < rem);`. -/
def drawFrom (rem : BitVec b) {σ : Type} (random : σ → BitVec b × σ) (s : σ) :
    Except DrawFailure (σ ⊕ (BitVec b × σ)) :=
  let (rnd, s) := random s
  if rnd < rem then .ok (.inl s) else .ok (.inr (rnd, s))

/-- `ExactUniformInt`, the loop taking at most `turns` turns. -/
def exactUniformInt (n : BitVec b) {σ : Type} (random : σ → BitVec b × σ) (turns : ℕ) (s : σ) :
    Except DrawFailure (BitVec b × σ) :=
  if n = 0 then
    -- Consume a value anyway.
    let (rnd, s) := random s
    .ok (rnd * n, s)
  else if n &&& (n - 1) = 0 then
    let (rnd, s) := random s
    .ok (rnd &&& (n - 1), s)
  else do
    let range := ~~~(0 : BitVec b)
    let rem := range % n + 1
    let (rnd, s) ← loop .stillDrawing (drawFrom rem random) turns s
    return (rnd % n, s)

/-- `UnbiasedUniform`. -/
def unbiasedUniform (n : ℤ) {σ : Type} (rand32 : σ → BitVec 32 × σ) (turns : ℕ) (s : σ) :
    Except DrawFailure (ℤ × σ) :=
  if n < 0 then .error .checkFailed
  else do
    let (rnd, s) ← exactUniformInt (BitVec.ofInt 32 n) rand32 turns s
    return (int32 rnd.toNat, s)

/-! ### What it is for -/

/-- A way to draw from a source of words of `b` bits, with a number of turns to do it in. -/
def Call (b : ℕ) (β : Type) : Type 1 :=
  (σ : Type) → (σ → BitVec b × σ) → ℕ → σ → Except DrawFailure (β × σ)

/-- What the call makes of the word `x`; nothing if it is rejected. -/
def landing {β : Type} (call : Call b β) (x : BitVec b) : Option β :=
  match call Unit (fun _ => (x, ())) 1 () with
  | .ok (v, _) => some v
  | .error _ => none

/-- The call draws until a word is accepted and returns what that word lands on, a number below `n`; and
each of the `n` numbers is landed on by equally many words. -/
structure Uniform (n : ℕ) {β : Type} (call : Call b β) (value : β → ℤ) : Prop where
  below : ∀ x v, landing call x = some v → 0 ≤ value v ∧ value v < n
  returns : ∀ {σ : Type} (random : σ → BitVec b × σ) (turns : ℕ) (s : σ) (v : β) (s' : σ),
    call σ random (turns + 1) s = .ok (v, s') ↔
      ∃ m < turns + 1, (∀ i < m, landing call (draw random i s).1 = none) ∧
        landing call (draw random m s).1 = some v ∧ (draw random m s).2 = s'
  waits : ∀ {σ : Type} (random : σ → BitVec b × σ) (turns : ℕ) (s : σ) (e : DrawFailure),
    call σ random (turns + 1) s = .error e ↔
      e = .stillDrawing ∧ ∀ i < turns + 1, landing call (draw random i s).1 = none
  balanced : ∀ k < n, (Finset.univ.filter fun x => (landing call x).map value = some (k : ℤ)).card =
    if n.isPowerOfTwo then 2 ^ b / n else (2 ^ b - 1) / n

/-! ### One draw -/

/-- What the code makes of one draw. -/
def settle (n x : BitVec b) : Option (BitVec b) :=
  if n &&& (n - 1) = 0 then some (x &&& (n - 1))
  else if x < ~~~(0 : BitVec b) % n + 1 then none
  else some (x % n)

/-- A call that settles draws one after the other lands where they settle. -/
theorem landing_eq {β : Type} {call : Call b β} {verdict : BitVec b → Option β}
    (h : ∀ {σ : Type} (random : σ → BitVec b × σ) (turns : ℕ) (s : σ),
      call σ random (turns + 1) s = loop .stillDrawing (sift verdict random) (turns + 1) s)
    (x : BitVec b) : landing call x = verdict x := by
  have hone := h (fun _ : Unit => (x, ())) 0 ()
  rw [landing, hone, loop]
  cases hv : verdict x with
  | none =>
    rw [sift_none hv]
    rfl
  | some v => rw [sift_some hv]

/-- A loop of settling fails only by waiting. -/
theorem loop_sift_error {σ α β : Type} {verdict : α → Option β} {random : σ → α × σ} {e : DrawFailure}
    {turns : ℕ} {s : σ} (h : loop .stillDrawing (sift verdict random) turns s = .error e) :
    e = .stillDrawing := by
  induction turns generalizing s with
  | zero => exact (Except.error.inj h).symm
  | succ turns ih =>
    rw [loop] at h
    cases hv : verdict (random s).1 with
    | some v =>
      rw [sift_some hv] at h
      cases h
    | none =>
      rw [sift_none hv] at h
      exact ih h

/-- **Rejection sampling is uniform** if its verdicts are balanced. -/
theorem uniform_of_verdict {n : ℕ} {β : Type} {call : Call b β} {value : β → ℤ}
    (verdict : BitVec b → Option β)
    (hcall : ∀ {σ : Type} (random : σ → BitVec b × σ) (turns : ℕ) (s : σ),
      call σ random (turns + 1) s = loop .stillDrawing (sift verdict random) (turns + 1) s)
    (hbelow : ∀ x v, verdict x = some v → 0 ≤ value v ∧ value v < n)
    (hcard : ∀ k < n, (Finset.univ.filter fun x => (verdict x).map value = some (k : ℤ)).card =
      if n.isPowerOfTwo then 2 ^ b / n else (2 ^ b - 1) / n) :
    Uniform n call value where
  below := fun x v => by
    rw [landing_eq hcall]
    exact hbelow x v
  returns := fun random turns s v s' => by
    simp only [landing_eq hcall]
    rw [hcall]
    exact loop_sift_eq_ok_iff
  waits := fun random turns s e => by
    simp only [landing_eq hcall]
    rw [hcall]
    constructor
    · intro h
      obtain rfl := loop_sift_error h
      exact ⟨rfl, loop_sift_eq_still_iff.mp h⟩
    · rintro ⟨rfl, h⟩
      exact loop_sift_eq_still_iff.mpr h
  balanced := fun k hk => by
    simp only [landing_eq hcall]
    exact hcard k hk

/-- The loop of the code throws away the words below `rem`. -/
theorem drawFrom_eq_sift (rem : BitVec b) {σ : Type} (random : σ → BitVec b × σ) :
    drawFrom rem random = sift (fun x => if x < rem then none else some x) random := by
  funext s
  rw [sift]
  show (if (random s).1 < rem then _ else _) = _
  split <;> rfl

theorem settle_of_not_power {n : BitVec b} (hpow : n &&& (n - 1) ≠ 0) :
    settle n = fun x =>
      (if x < ~~~(0 : BitVec b) % n + 1 then none else some x).map fun x => x % n := by
  funext x
  rw [settle, if_neg hpow]
  split <;> rfl

theorem bind_eq_map {β γ σ ε : Type} (f : β → γ) (r : Except ε (β × σ)) :
    (do
      let (v, s) ← r
      return (f v, s)) = r.map fun r => (f r.1, r.2) := by
  cases r <;> rfl

/-- **A call settles draws one after the other.** -/
theorem exactUniformInt_eq_loop {n : BitVec b} (hn : n ≠ 0) {σ : Type} (random : σ → BitVec b × σ)
    (turns : ℕ) (s : σ) :
    exactUniformInt n random (turns + 1) s =
      loop .stillDrawing (sift (settle n) random) (turns + 1) s := by
  rw [exactUniformInt, if_neg hn]
  by_cases hpow : n &&& (n - 1) = 0
  · have hsome : settle n (random s).1 = some ((random s).1 &&& (n - 1)) := by rw [settle, if_pos hpow]
    rw [if_pos hpow, loop, sift_some hsome]
  · rw [if_neg hpow]
    rw [settle_of_not_power hpow, ← loop_sift_map, ← drawFrom_eq_sift]
    exact bind_eq_map (fun x => x % n) _

/-! ### Counting draws -/

/-- The words with a property are counted as numbers. -/
theorem card_filter_bitVec (P : ℕ → Prop) [DecidablePred P] :
    (Finset.univ.filter fun x : BitVec b => P x.toNat).card = ((Finset.range (2 ^ b)).filter P).card := by
  refine Finset.card_nbij' BitVec.toNat (BitVec.ofNat b) ?_ ?_ ?_ ?_
  · intro x hx
    exact Finset.mem_filter.mpr ⟨Finset.mem_range.mpr x.isLt, (Finset.mem_filter.mp hx).2⟩
  · intro x hx
    obtain ⟨hlt, hP⟩ := Finset.mem_filter.mp hx
    refine Finset.mem_filter.mpr ⟨Finset.mem_univ _, ?_⟩
    rwa [BitVec.toNat_ofNat, Nat.mod_eq_of_lt (Finset.mem_range.mp hlt)]
  · intro x _
    rw [BitVec.ofNat_toNat, BitVec.setWidth_eq]
  · intro x hx
    rw [BitVec.toNat_ofNat]
    exact Nat.mod_eq_of_lt (Finset.mem_range.mp (Finset.mem_filter.mp hx).1)

variable {n : BitVec b}

theorem toNat_ne_zero (hn : n ≠ 0) : n.toNat ≠ 0 := fun h => hn (BitVec.eq_of_toNat_eq (by simpa using h))

theorem toNat_one_of_ne_zero (hn : n ≠ 0) : (1 : BitVec b).toNat = 1 := by
  have hpos := toNat_ne_zero hn
  have hlt := n.isLt
  rw [show (1 : BitVec b) = BitVec.ofNat b 1 from rfl, BitVec.toNat_ofNat]
  exact Nat.mod_eq_of_lt (by omega)

theorem toNat_sub_one (hn : n ≠ 0) : (n - 1).toNat = n.toNat - 1 := by
  have hpos := toNat_ne_zero hn
  have hone := toNat_one_of_ne_zero hn
  rw [BitVec.toNat_sub_of_le (by rw [BitVec.le_def, hone]; omega), hone]

theorem and_sub_one_eq_zero_iff (hn : n ≠ 0) : n &&& (n - 1) = 0 ↔ n.toNat.isPowerOfTwo := by
  rw [← Nat.and_sub_one_eq_zero_iff_isPowerOfTwo (toNat_ne_zero hn), ← toNat_sub_one hn,
    ← BitVec.toNat_and]
  constructor
  · intro h
    rw [h]
    rfl
  · intro h
    exact BitVec.eq_of_toNat_eq (by rw [h]; rfl)

/-- A power of two masks the remainder out. -/
theorem toNat_and_sub_one (hn : n ≠ 0) (hpow : n.toNat.isPowerOfTwo) (x : BitVec b) :
    (x &&& (n - 1)).toNat = x.toNat % n.toNat := by
  obtain ⟨k, hk⟩ := hpow
  rw [BitVec.toNat_and, toNat_sub_one hn, hk, Nat.and_two_pow_sub_one_eq_mod]

/-- `rem`, as a number. -/
theorem toNat_rem (hn : n ≠ 0) : (~~~(0 : BitVec b) % n + 1).toNat = (2 ^ b - 1) % n.toNat + 1 := by
  have hpos := toNat_ne_zero hn
  have hlt := n.isLt
  have hmod : (2 ^ b - 1) % n.toNat < n.toNat := Nat.mod_lt _ (by omega)
  have hrange : (~~~(0 : BitVec b)).toNat = 2 ^ b - 1 := by
    rw [BitVec.toNat_not]
    rfl
  rw [BitVec.toNat_add, BitVec.toNat_umod, hrange, toNat_one_of_ne_zero hn]
  exact Nat.mod_eq_of_lt (by omega)

/-- The words that are not rejected are shared out evenly: 2ᵇ - rem = n⌊(2ᵇ - 1) / n⌋. -/
theorem rem_add_mul_div (b n : ℕ) : (2 ^ b - 1) % n + 1 + n * ((2 ^ b - 1) / n) = 2 ^ b := by
  have hpos : 0 < 2 ^ b := Nat.two_pow_pos b
  have hdiv := Nat.mod_add_div (2 ^ b - 1) n
  omega

/-- What a draw settles to is its remainder, unless it is rejected. -/
theorem settle_eq (hn : n ≠ 0) (x : BitVec b) :
    (settle n x).map BitVec.toNat =
      if n.toNat.isPowerOfTwo ∨ (2 ^ b - 1) % n.toNat + 1 ≤ x.toNat then some (x.toNat % n.toNat)
      else none := by
  rw [settle]
  by_cases hpow : n.toNat.isPowerOfTwo
  · rw [if_pos ((and_sub_one_eq_zero_iff hn).mpr hpow), if_pos (.inl hpow), Option.map_some,
      toNat_and_sub_one hn hpow]
  · rw [if_neg fun h => hpow ((and_sub_one_eq_zero_iff hn).mp h)]
    by_cases hrej : x < ~~~(0 : BitVec b) % n + 1
    · have hlt : x.toNat < (2 ^ b - 1) % n.toNat + 1 := by
        rwa [BitVec.lt_def, toNat_rem hn] at hrej
      rw [if_pos hrej, if_neg (not_or.mpr ⟨hpow, by omega⟩), Option.map_none]
    · have hge : (2 ^ b - 1) % n.toNat + 1 ≤ x.toNat := by
        rwa [BitVec.lt_def, toNat_rem hn, not_lt] at hrej
      rw [if_neg hrej, if_pos (.inr hge), Option.map_some, BitVec.toNat_umod]

theorem settle_lt (hn : n ≠ 0) {x v : BitVec b} (h : settle n x = some v) : v.toNat < n.toNat := by
  have heq := settle_eq hn x
  rw [h, Option.map_some] at heq
  have hmod : x.toNat % n.toNat < n.toNat := Nat.mod_lt _ (Nat.pos_of_ne_zero (toNat_ne_zero hn))
  split at heq
  · rwa [Option.some.inj heq]
  · cases heq

/-- **Every number below `n` is settled on by equally many draws.** -/
theorem card_settle (hn : n ≠ 0) {k : ℕ} (hk : k < n.toNat) :
    (Finset.univ.filter fun x => (settle n x).map BitVec.toNat = some k).card =
      if n.toNat.isPowerOfTwo then 2 ^ b / n.toNat else (2 ^ b - 1) / n.toNat := by
  simp only [settle_eq hn]
  rw [card_filter_bitVec fun x => (if n.toNat.isPowerOfTwo ∨ (2 ^ b - 1) % n.toNat + 1 ≤ x
    then some (x % n.toNat) else none) = some k]
  by_cases hpow : n.toNat.isPowerOfTwo
  · obtain ⟨j, hj⟩ := hpow
    have hdvd : n.toNat ∣ 2 ^ b := by
      rw [hj]
      refine Nat.pow_dvd_pow 2 (Nat.le_of_lt ((Nat.pow_lt_pow_iff_right Nat.one_lt_two).mp ?_))
      rw [← hj]
      exact n.isLt
    have hall := card_filter_mod (r := 0) (q := 2 ^ b / n.toNat) hk
    rw [Nat.zero_add, Nat.mul_div_cancel' hdvd, ← Finset.range_eq_Ico] at hall
    rw [if_pos ⟨j, hj⟩, ← hall]
    refine congrArg Finset.card (Finset.filter_congr fun x _ => ?_)
    rw [if_pos (.inl ⟨j, hj⟩), Option.some.injEq]
  · have hsome := card_filter_mod (r := (2 ^ b - 1) % n.toNat + 1) (q := (2 ^ b - 1) / n.toNat) hk
    rw [rem_add_mul_div] at hsome
    rw [if_neg hpow, ← hsome]
    congr 1
    ext x
    simp only [Finset.mem_filter, Finset.mem_range, Finset.mem_Ico, hpow, false_or]
    split_ifs with h
    · simp [h]
    · simp [h]

/-! ### The calls -/

theorem uniform_exactUniformInt (hn : n ≠ 0) :
    Uniform n.toNat (fun _ => exactUniformInt n) fun v => (v.toNat : ℤ) := by
  refine uniform_of_verdict (settle n) (exactUniformInt_eq_loop hn) ?_ ?_
  · intro x v h
    exact ⟨Int.natCast_nonneg _, by exact_mod_cast settle_lt hn h⟩
  · intro k hk
    rw [← card_settle hn hk]
    refine congrArg Finset.card (Finset.filter_congr fun x _ => ?_)
    simp only [Option.map_eq_some_iff, Int.natCast_inj]

theorem unbiasedUniform_eq_loop {n : ℤ} (hn : 0 ≤ n) (hne : BitVec.ofInt 32 n ≠ 0) {σ : Type}
    (rand32 : σ → BitVec 32 × σ) (turns : ℕ) (s : σ) :
    unbiasedUniform n rand32 (turns + 1) s =
      loop .stillDrawing (sift (fun x => (settle (BitVec.ofInt 32 n) x).map fun v => int32 v.toNat) rand32)
        (turns + 1) s := by
  rw [unbiasedUniform, if_neg (not_lt.mpr hn), exactUniformInt_eq_loop hne, ← loop_sift_map]
  exact bind_eq_map (fun v : BitVec 32 => int32 v.toNat) _

theorem uniform_unbiasedUniform {n : ℕ} (hn : 1 ≤ n) (hmax : n < 2 ^ 31) :
    Uniform n (fun _ => unbiasedUniform n) id := by
  have htoNat : (BitVec.ofInt 32 n).toNat = n := by
    rw [BitVec.ofInt_natCast, BitVec.toNat_ofNat]
    exact Nat.mod_eq_of_lt (by omega)
  have hne : BitVec.ofInt 32 n ≠ 0 := by
    intro h
    rw [h] at htoNat
    exact absurd htoNat.symm (by simp; omega)
  have hcast : ∀ {x v : BitVec 32}, settle (BitVec.ofInt 32 n) x = some v → int32 v.toNat = v.toNat := by
    intro x v h
    have hlt := settle_lt hne h
    rw [htoNat] at hlt
    exact WeightedPicker.int32_eq (by omega) (by rw [WeightedPicker.maxInt32]; omega)
  refine uniform_of_verdict _ (unbiasedUniform_eq_loop (Int.natCast_nonneg n) hne) ?_ ?_
  · intro x v h
    obtain ⟨w, hw, rfl⟩ := Option.map_eq_some_iff.mp h
    have hlt := settle_lt hne hw
    rw [htoNat] at hlt
    rw [hcast hw]
    exact ⟨Int.natCast_nonneg _, Int.ofNat_lt.mpr hlt⟩
  · intro k hk
    have hcard := card_settle hne (show k < (BitVec.ofInt 32 n).toNat by rwa [htoNat])
    rw [htoNat] at hcard
    rw [← hcard]
    refine congrArg Finset.card (Finset.filter_congr fun x _ => ?_)
    cases hx : settle (BitVec.ofInt 32 n) x with
    | none => simp
    | some v => simp [hcast hx]

/-- **Exact uniformity**: words of any width, and `int32`. -/
theorem exactUniformInt_uniform (b : ℕ) :
    (∀ n : BitVec b, 1 ≤ n.toNat →
      Uniform n.toNat (fun _ => exactUniformInt n) fun v => (v.toNat : ℤ)) ∧
    ∀ n : ℕ, 1 ≤ n → n < 2 ^ 31 → Uniform n (fun _ => unbiasedUniform n) id := by
  refine ⟨fun n hn => uniform_exactUniformInt fun h => ?_, fun n hn hmax => uniform_unbiasedUniform hn hmax⟩
  rw [h] at hn
  exact absurd hn (by simp)

/-- Ten results, for which words of 32 bits are rejected. -/
theorem exactUniformInt_uniform_ten :
    Uniform 10 (fun _ => exactUniformInt (10 : BitVec 32)) (fun v => (v.toNat : ℤ)) ∧
      Uniform 10 (fun _ => unbiasedUniform 10) id :=
  ⟨(exactUniformInt_uniform 32).1 10 (by decide), (exactUniformInt_uniform 32).2 10 (by decide) (by decide)⟩

end LearnNetlib.Random
