import LearnNetlib.Foundations.Loops
import Mathlib.Data.Int.CardIntervalMod
import Mathlib.Logic.Function.Iterate

/-!
# Rejection sampling

A random source is a state and what a draw makes of it. Draws are thrown away until one of them is
settled.

* `draw` — the draws of a source, one after the other;
* `sift` — the turn of the loop that waits for a settled draw;
* **`loop_sift_eq_ok_iff`**, `loop_sift_eq_still_iff` — the loop leaves with what the first settled draw
  is settled to; `loop_sift_map` reworks the result;
* **`card_filter_mod`** — the residues over an interval whose length is a multiple of the modulus.
-/

namespace LearnNetlib.RejectionSampling

open LearnNetlib.Loops

variable {σ α β ε : Type*}

/-- The draw number `m`, and the source after it. -/
def draw (random : σ → α × σ) : ℕ → σ → α × σ
  | 0, s => random s
  | m + 1, s => draw random m (random s).2

/-- One draw, kept if it is settled. -/
def sift (settle : α → Option β) (random : σ → α × σ) (s : σ) : Except ε (σ ⊕ (β × σ)) :=
  match settle (random s).1 with
  | some v => .ok (.inr (v, (random s).2))
  | none => .ok (.inl (random s).2)

variable {settle : α → Option β} {random : σ → α × σ} {still : ε} {s : σ}

theorem sift_some {v : β} (h : settle (random s).1 = some v) :
    sift settle random s = (.ok (.inr (v, (random s).2)) : Except ε _) := by
  rw [sift, h]

theorem sift_none (h : settle (random s).1 = none) :
    sift settle random s = (.ok (.inl (random s).2) : Except ε _) := by
  rw [sift, h]

/-- The loop waits as long as nothing is settled. -/
theorem loop_sift_eq_still_iff {turns : ℕ} :
    loop still (sift settle random) turns s = .error still ↔
      ∀ i < turns, settle (draw random i s).1 = none := by
  induction turns generalizing s with
  | zero => simp [loop]
  | succ turns ih =>
    rw [loop, Nat.forall_lt_succ_left]
    cases hv : settle (random s).1 with
    | some v => simp [sift_some hv, draw, hv]
    | none => simp [sift_none hv, draw, hv, ih]

/-- **The first settled draw decides.** -/
theorem loop_sift_eq_ok_iff {turns : ℕ} {v : β} {s' : σ} :
    loop still (sift settle random) turns s = .ok (v, s') ↔
      ∃ m < turns, (∀ i < m, settle (draw random i s).1 = none) ∧
        settle (draw random m s).1 = some v ∧ (draw random m s).2 = s' := by
  induction turns generalizing s with
  | zero => simp [loop]
  | succ turns ih =>
    rw [loop]
    cases hv : settle (random s).1 with
    | some w =>
      rw [sift_some hv]
      constructor
      · intro h
        obtain ⟨rfl, rfl⟩ : w = v ∧ (random s).2 = s' := by simpa using h
        exact ⟨0, Nat.succ_pos _, by simp, hv, rfl⟩
      · rintro ⟨m, -, hnone, hsome, hs'⟩
        cases m with
        | zero =>
          rw [draw, hv] at hsome
          obtain rfl := Option.some.inj hsome
          rw [← hs', draw]
        | succ m => exact absurd (hnone 0 (Nat.succ_pos m)) (by rw [draw, hv]; exact Option.some_ne_none w)
    | none =>
      rw [sift_none hv]
      simp only
      rw [ih]
      constructor
      · rintro ⟨m, hm, hnone, hsome, hs'⟩
        exact ⟨m + 1, Nat.succ_lt_succ hm, Nat.forall_lt_succ_left.mpr ⟨hv, hnone⟩, hsome, hs'⟩
      · rintro ⟨m, hm, hnone, hsome, hs'⟩
        cases m with
        | zero =>
          rw [draw, hv] at hsome
          cases hsome
        | succ m =>
          exact ⟨m, Nat.lt_of_succ_lt_succ hm, (Nat.forall_lt_succ_left.mp hnone).2, hsome, hs'⟩

/-- Reworking the results is settling differently. -/
theorem loop_sift_map {γ : Type*} (f : β → γ) {turns : ℕ} :
    (loop still (sift settle random) turns s).map (fun r => (f r.1, r.2)) =
      loop still (sift (fun x => (settle x).map f) random) turns s := by
  induction turns generalizing s with
  | zero => rfl
  | succ turns ih =>
    rw [loop, loop]
    cases hv : settle (random s).1 with
    | some v =>
      rw [sift_some hv, sift_some (v := f v) (by rw [hv, Option.map_some])]
      rfl
    | none =>
      rw [sift_none hv, sift_none (by rw [hv, Option.map_none])]
      exact ih

/-- **Residues are equally frequent** over an interval whose length is a multiple of the modulus. -/
theorem card_filter_mod {n q r k : ℕ} (hk : k < n) :
    ((Finset.Ico r (r + n * q)).filter fun x => x % n = k).card = q := by
  have hn : 0 < n := Nat.zero_lt_of_lt hk
  have hmod : ∀ x, x % n = k ↔ x ≡ k [MOD n] := by
    intro x
    rw [Nat.ModEq, Nat.mod_eq_of_lt hk]
  have hceil : ⌈((r + n * q : ℕ) - k : ℚ) / n⌉ = ⌈((r : ℚ) - k) / n⌉ + q := by
    rw [← Int.ceil_add_natCast]
    congr 1
    have hne : (n : ℚ) ≠ 0 := by exact_mod_cast hn.ne'
    push_cast
    field_simp
    ring
  have hcard := Nat.Ico_filter_modEq_card r (r + n * q) hn k
  rw [hceil, add_sub_cancel_left, max_eq_left (Int.natCast_nonneg q)] at hcard
  simp only [hmod]
  exact_mod_cast hcard

end LearnNetlib.RejectionSampling
