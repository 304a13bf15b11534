import Mathlib.Algebra.BigOperators.Group.Finset.Piecewise
import Mathlib.Algebra.Order.BigOperators.Group.Finset
import Mathlib.Algebra.Order.Ring.Defs
import Mathlib.Tactic.Abel

/-!
# Alias tables

A row of the table keeps a part of its unit of mass for itself and leaves the rest to an alias; a row
without alias is open. The table is filled by closing one row after the other.

* `share` — what a row gets out of the whole table; `deficit` — what the open rows miss;
* `close` — a row with less than its unit gets the rest of it from another one;
* **`share_close`**, **`deficit_close`** — neither changes;
* **`prob_eq_one_of_open`** — if nothing is missing and the open rows are all on one side of their unit,
  they have exactly that.
-/

namespace LearnNetlib

/-- What each row has, and who gets the rest. -/
structure AliasTable (ι 𝕜 : Type*) where
  prob : ι → 𝕜
  alt : ι → Option ι

namespace AliasTable

open Finset

variable {ι 𝕜 : Type*} [Fintype ι] [DecidableEq ι] [Ring 𝕜]

/-- What the row has of its own, and what others leave to it. -/
def share (t : AliasTable ι 𝕜) (i : ι) : 𝕜 :=
  t.prob i + ∑ j, if t.alt j = some i then 1 - t.prob j else 0

/-- What the open rows miss of their units. -/
def deficit (t : AliasTable ι 𝕜) : 𝕜 := ∑ j, if t.alt j = none then 1 - t.prob j else 0

/-- `l` is closed, and `h` gives what `l` misses. -/
def close (t : AliasTable ι 𝕜) (l h : ι) : AliasTable ι 𝕜 where
  prob := Function.update t.prob h (t.prob h - (1 - t.prob l))
  alt := Function.update t.alt l (some h)

omit [Fintype ι] in
theorem close_prob (t : AliasTable ι 𝕜) (l h : ι) :
    (t.close l h).prob = Function.update t.prob h (t.prob h - (1 - t.prob l)) := rfl

omit [Fintype ι] in
theorem close_alt (t : AliasTable ι 𝕜) (l h : ι) :
    (t.close l h).alt = Function.update t.alt l (some h) := rfl

/-- The table with all rows open. -/
def start (p : ι → 𝕜) : AliasTable ι 𝕜 := ⟨p, fun _ => none⟩

theorem share_start (p : ι → 𝕜) (i : ι) : (start p).share i = p i := by
  simp [share, start]

omit [DecidableEq ι] in
theorem deficit_start (p : ι → 𝕜) : (start p).deficit = Fintype.card ι - ∑ i, p i := by
  simp [deficit, start]

/-- A sum after one term has changed. -/
theorem sum_update (f : ι → 𝕜) (a : ι) (v : 𝕜) :
    ∑ j, Function.update f a v j = ∑ j, f j + (v - f a) := by
  rw [sum_update_of_mem (mem_univ a), ← add_sum_erase univ f (mem_univ a), sdiff_singleton_eq_erase]
  abel

variable {t : AliasTable ι 𝕜} {l h : ι}

/-- **Shares are kept.** -/
theorem share_close (hl : t.alt l = none) (hh : t.alt h = none) (hne : h ≠ l) (i : ι) :
    (t.close l h).share i = t.share i := by
  have hterms : (fun j => if (t.close l h).alt j = some i then 1 - (t.close l h).prob j else 0) =
      Function.update (fun j => if t.alt j = some i then 1 - t.prob j else 0) l
        (if h = i then 1 - t.prob l else 0) := by
    funext j
    by_cases hjl : j = l
    · subst hjl
      simp [close, hne.symm]
    · by_cases hjh : j = h
      · subst hjh
        simp [close, hjl, hh]
      · simp [close, hjl, hjh]
  rw [share, hterms, sum_update, share, hl]
  by_cases hi : h = i
  · subst hi
    simp only [close, Function.update_self, if_pos, if_neg (Option.some_ne_none _).symm]
    abel
  · simp [close, hi, Ne.symm hi]

/-- **The deficit is kept.** -/
theorem deficit_close (hl : t.alt l = none) (hh : t.alt h = none) (hne : h ≠ l) :
    (t.close l h).deficit = t.deficit := by
  have hterms : (fun j => if (t.close l h).alt j = none then 1 - (t.close l h).prob j else 0) =
      Function.update (Function.update (fun j => if t.alt j = none then 1 - t.prob j else 0) h
        (1 - (t.prob h - (1 - t.prob l)))) l 0 := by
    funext j
    by_cases hjl : j = l
    · subst hjl
      simp [close]
    · by_cases hjh : j = h
      · subst hjh
        simp [close, hjl, hh]
      · simp [close, hjl, hjh]
  rw [deficit, hterms, sum_update, sum_update, Function.update_of_ne hne.symm]
  simp only [hl, hh, if_pos, deficit]
  abel

section Ordered

variable [LinearOrder 𝕜] [IsStrictOrderedRing 𝕜]

omit [DecidableEq ι] in
/-- **When nothing is missing**, open rows that are all full, or all not full, have their units exactly. -/
theorem prob_eq_one_of_open (hzero : t.deficit = 0)
    (hside : (∀ i, t.alt i = none → 1 ≤ t.prob i) ∨ ∀ i, t.alt i = none → t.prob i < 1) {i : ι}
    (hi : t.alt i = none) : t.prob i = 1 := by
  have hterm {s : 𝕜} (hs : (if t.alt i = none then s else 0) = 0) : s = 0 := by rwa [if_pos hi] at hs
  rcases hside with hfull | hless
  · have hall := (sum_eq_zero_iff_of_nonpos fun j _ => ?_).mp hzero i (mem_univ i)
    · exact (sub_eq_zero.mp (hterm hall)).symm
    · split_ifs with hj
      · exact sub_nonpos.mpr (hfull j hj)
      · exact le_refl 0
  · have hall := (sum_eq_zero_iff_of_nonneg fun j _ => ?_).mp hzero i (mem_univ i)
    · exact (sub_eq_zero.mp (hterm hall)).symm
    · split_ifs with hj
      · exact sub_nonneg.mpr (hless j hj).le
      · exact le_refl 0

end Ordered

end AliasTable

end LearnNetlib
