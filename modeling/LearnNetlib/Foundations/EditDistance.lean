import Mathlib.Data.List.Infix
import Mathlib.Order.Bounds.Basic
import Mathlib.Order.MinMax
import Mathlib.Tactic.Common

/-!
# Edit distance

* `Edits n s t` — `n` insertions, deletions and substitutions turn `s` into `t`;
* `Aligned s t n` — an alignment of `s` and `t` of cost `n`; by `Aligned.edits` and `Edits.aligned`
  **sequences of edits and alignments cost the same**;
* `levenshtein` — the standard recursion; `levenshtein_isLeast` is the **least number of edits**,
  `levenshtein_comm`, `levenshtein_reverse` and the two length bounds follow from it;
* `levenshtein_concat` — the recursion at the **last** elements, which is what a table over
  prefixes computes;
* `suffixDistance` — the least distance to a suffix of the second sequence, with the same recursion
  at the last elements and another first row.
-/

namespace LearnNetlib.EditDistance

section Scripts

variable {α : Type*} {s t u s' t' : List α} {n m : ℕ}

/-- One insertion, deletion or substitution, anywhere in the sequence. -/
inductive Edit : List α → List α → Prop
  | insert (l r : List α) (b : α) : Edit (l ++ r) (l ++ b :: r)
  | delete (l r : List α) (a : α) : Edit (l ++ a :: r) (l ++ r)
  | substitute (l r : List α) (a b : α) : Edit (l ++ a :: r) (l ++ b :: r)

/-- `n` edits, one after the other. -/
inductive Edits : ℕ → List α → List α → Prop
  | refl (s : List α) : Edits 0 s s
  | tail {n : ℕ} {s u t : List α} : Edits n s u → Edit u t → Edits (n + 1) s t

/-- An alignment, written from the front, with the number of positions it pays for. -/
inductive Aligned : List α → List α → ℕ → Prop
  | nil : Aligned [] [] 0
  | keep (a : α) {s t : List α} {n : ℕ} : Aligned s t n → Aligned (a :: s) (a :: t) n
  | delete (a : α) {s t : List α} {n : ℕ} : Aligned s t n → Aligned (a :: s) t (n + 1)
  | insert (b : α) {s t : List α} {n : ℕ} : Aligned s t n → Aligned s (b :: t) (n + 1)
  | substitute (a b : α) {s t : List α} {n : ℕ} : Aligned s t n → Aligned (a :: s) (b :: t) (n + 1)

/-! ### Alignments -/

theorem Aligned.refl (s : List α) : Aligned s s 0 := by
  induction s with
  | nil => exact .nil
  | cons a s ih => exact .keep a ih

theorem Aligned.symm (h : Aligned s t n) : Aligned t s n := by
  induction h with
  | nil => exact .nil
  | keep a _ ih => exact .keep a ih
  | delete a _ ih => exact .insert a ih
  | insert b _ ih => exact .delete b ih
  | substitute a b _ ih => exact .substitute b a ih

theorem Aligned.append (h : Aligned s t n) (h' : Aligned s' t' m) :
    Aligned (s ++ s') (t ++ t') (n + m) := by
  induction h with
  | nil => simpa using h'
  | keep a _ ih => exact .keep a ih
  | delete a _ ih =>
    rw [Nat.add_right_comm]
    exact .delete a ih
  | insert b _ ih =>
    rw [Nat.add_right_comm]
    exact .insert b ih
  | substitute a b _ ih =>
    rw [Nat.add_right_comm]
    exact .substitute a b ih

/-- Read from the back, an alignment costs the same. -/
theorem Aligned.reverse (h : Aligned s t n) : Aligned s.reverse t.reverse n := by
  induction h with
  | nil => exact .nil
  | keep a _ ih => simpa using ih.append (.keep a .nil)
  | delete a _ ih => simpa using ih.append (.delete a .nil)
  | insert b _ ih => simpa using ih.append (.insert b .nil)
  | substitute a b _ ih => simpa using ih.append (.substitute a b .nil)

theorem Aligned.length_le (h : Aligned s t n) : s.length ≤ t.length + n := by
  induction h with
  | nil => simp
  | keep a _ ih => simp only [List.length_cons]; omega
  | delete a _ ih => simp only [List.length_cons]; omega
  | insert b _ ih => simp only [List.length_cons]; omega
  | substitute a b _ ih => simp only [List.length_cons]; omega

/-- Everything deleted. -/
theorem Aligned.to_nil (s : List α) : Aligned s [] s.length := by
  induction s with
  | nil => exact .nil
  | cons a s ih => exact .delete a ih

/-- An alignment with `l ++ r` splits where `l` ends. -/
theorem Aligned.split {l r : List α} (h : Aligned s (l ++ r) n) :
    ∃ s₁ s₂ n₁ n₂, s = s₁ ++ s₂ ∧ n = n₁ + n₂ ∧ Aligned s₁ l n₁ ∧ Aligned s₂ r n₂ := by
  generalize hw : l ++ r = w at h
  induction h generalizing l with
  | nil =>
    obtain ⟨rfl, rfl⟩ := List.append_eq_nil_iff.mp hw
    exact ⟨[], [], 0, 0, rfl, rfl, .nil, .nil⟩
  | @keep a s t n h ih =>
    cases l with
    | nil =>
      subst hw
      exact ⟨[], _, 0, n, rfl, by omega, .nil, .keep a h⟩
    | cons b l =>
      obtain ⟨rfl, hw'⟩ := List.cons.inj hw
      obtain ⟨s₁, s₂, n₁, n₂, rfl, rfl, h₁, h₂⟩ := ih hw'
      exact ⟨b :: s₁, s₂, n₁, n₂, rfl, rfl, .keep b h₁, h₂⟩
  | @delete a s t n h ih =>
    obtain ⟨s₁, s₂, n₁, n₂, rfl, rfl, h₁, h₂⟩ := ih hw
    exact ⟨a :: s₁, s₂, n₁ + 1, n₂, rfl, by omega, .delete a h₁, h₂⟩
  | @insert b s t n h ih =>
    cases l with
    | nil =>
      subst hw
      exact ⟨[], s, 0, n + 1, rfl, by omega, .nil, .insert b h⟩
    | cons c l =>
      obtain ⟨rfl, hw'⟩ := List.cons.inj hw
      obtain ⟨s₁, s₂, n₁, n₂, rfl, rfl, h₁, h₂⟩ := ih hw'
      exact ⟨s₁, s₂, n₁ + 1, n₂, rfl, by omega, .insert c h₁, h₂⟩
  | @substitute a b s t n h ih =>
    cases l with
    | nil =>
      subst hw
      exact ⟨[], _, 0, n + 1, rfl, by omega, .nil, .substitute a b h⟩
    | cons c l =>
      obtain ⟨rfl, hw'⟩ := List.cons.inj hw
      obtain ⟨s₁, s₂, n₁, n₂, rfl, rfl, h₁, h₂⟩ := ih hw'
      exact ⟨a :: s₁, s₂, n₁ + 1, n₂, rfl, by omega, .substitute a c h₁, h₂⟩

/-- Whatever stands against one element can be deleted for one more. -/
theorem Aligned.drop_one {x : α} (h : Aligned s [x] n) : ∃ m ≤ n + 1, Aligned s [] m := by
  refine ⟨s.length, ?_, .to_nil s⟩
  have hlen := h.length_le
  simp only [List.length_singleton] at hlen
  omega

/-- Whatever stands against one element can stand against another for one more. -/
theorem Aligned.change_one {x : α} (y : α) (h : Aligned s [x] n) :
    ∃ m ≤ n + 1, Aligned s [y] m := by
  have hlen := h.length_le
  simp only [List.length_singleton] at hlen
  cases s with
  | nil => exact ⟨1, by omega, .insert y .nil⟩
  | cons a s =>
    refine ⟨s.length + 1, ?_, .substitute a y (.to_nil s)⟩
    simp only [List.length_cons] at hlen
    omega

/-- An edit of the target costs an alignment at most one. -/
theorem Aligned.edit (h : Aligned s u n) (e : Edit u t) : ∃ m ≤ n + 1, Aligned s t m := by
  cases e with
  | insert l r b =>
    obtain ⟨s₁, s₂, n₁, n₂, rfl, rfl, h₁, h₂⟩ := h.split
    exact ⟨n₁ + (n₂ + 1), by omega, h₁.append (.insert b h₂)⟩
  | delete l r a =>
    obtain ⟨s₁, s₂, n₁, n₂, rfl, rfl, h₁, h₂⟩ := h.split
    obtain ⟨s₃, s₄, n₃, n₄, rfl, rfl, h₃, h₄⟩ := Aligned.split (l := [a]) h₂
    obtain ⟨m, hm, h₃'⟩ := h₃.drop_one
    exact ⟨n₁ + (m + n₄), by omega, h₁.append (h₃'.append h₄)⟩
  | substitute l r a b =>
    obtain ⟨s₁, s₂, n₁, n₂, rfl, rfl, h₁, h₂⟩ := h.split
    obtain ⟨s₃, s₄, n₃, n₄, rfl, rfl, h₃, h₄⟩ := Aligned.split (l := [a]) h₂
    obtain ⟨m, hm, h₃'⟩ := h₃.change_one b
    exact ⟨n₁ + (m + n₄), by omega, h₁.append (h₃'.append h₄)⟩

/-! ### Sequences of edits -/

theorem Edit.cons (a : α) (e : Edit s t) : Edit (a :: s) (a :: t) := by
  cases e with
  | insert l r b => exact .insert (a :: l) r b
  | delete l r b => exact .delete (a :: l) r b
  | substitute l r b c => exact .substitute (a :: l) r b c

theorem Edits.cons (a : α) (h : Edits n s t) : Edits n (a :: s) (a :: t) := by
  induction h with
  | refl s => exact .refl (a :: s)
  | tail _ e ih => exact ih.tail (e.cons a)

theorem Edits.head (e : Edit s u) (h : Edits n u t) : Edits (n + 1) s t := by
  induction h with
  | refl u => exact (Edits.refl s).tail e
  | tail _ e' ih => exact (ih e).tail e'

theorem Aligned.edits (h : Aligned s t n) : Edits n s t := by
  induction h with
  | nil => exact .refl []
  | keep a _ ih => exact ih.cons a
  | delete a _ ih => exact .head (.delete [] _ a) ih
  | insert b _ ih => exact ih.tail (.insert [] _ b)
  | substitute a b _ ih => exact .head (.substitute [] _ a b) (ih.cons b)

theorem Edits.aligned (h : Edits n s t) : ∃ m ≤ n, Aligned s t m := by
  induction h with
  | refl s => exact ⟨0, le_rfl, .refl s⟩
  | tail _ e ih =>
    obtain ⟨m, hm, ha⟩ := ih
    obtain ⟨k, hk, ha'⟩ := ha.edit e
    exact ⟨k, by omega, ha'⟩

end Scripts

/-! ### The distance -/

section Distance

variable {α : Type*} [DecidableEq α] {s t u : List α} {n : ℕ}

/-- What it costs to align two elements. -/
def cost (a b : α) : ℕ := if a = b then 0 else 1

/-- The standard recursion. -/
def levenshtein : List α → List α → ℕ
  | [], t => t.length
  | _ :: s, [] => s.length + 1
  | a :: s, b :: t =>
    min (levenshtein s (b :: t) + 1) (min (levenshtein (a :: s) t + 1) (levenshtein s t + cost a b))

@[simp] theorem levenshtein_nil_left (t : List α) : levenshtein [] t = t.length := by
  rw [levenshtein]

@[simp] theorem levenshtein_nil_right (s : List α) : levenshtein s [] = s.length := by
  cases s with
  | nil => rw [levenshtein]
  | cons a s => rw [levenshtein, List.length_cons]

theorem levenshtein_cons_cons (a b : α) (s t : List α) :
    levenshtein (a :: s) (b :: t) =
      min (levenshtein s (b :: t) + 1)
        (min (levenshtein (a :: s) t + 1) (levenshtein s t + cost a b)) := by
  rw [levenshtein]

theorem levenshtein_cons_left_le (a : α) (s t : List α) :
    levenshtein (a :: s) t ≤ levenshtein s t + 1 := by
  cases t with
  | nil => simp
  | cons b t => rw [levenshtein_cons_cons]; omega

theorem levenshtein_cons_right_le (b : α) (s t : List α) :
    levenshtein s (b :: t) ≤ levenshtein s t + 1 := by
  cases s with
  | nil => simp
  | cons a s => rw [levenshtein_cons_cons]; omega

/-- The recursion undercuts every alignment. -/
theorem Aligned.levenshtein_le (h : Aligned s t n) : levenshtein s t ≤ n := by
  induction h with
  | nil => simp
  | @keep a s t n _ ih =>
    have hcost : cost a a = 0 := if_pos rfl
    rw [levenshtein_cons_cons]
    omega
  | @delete a s t n _ ih =>
    have hle := levenshtein_cons_left_le a s t
    omega
  | @insert b s t n _ ih =>
    have hle := levenshtein_cons_right_le b s t
    omega
  | @substitute a b s t n _ ih =>
    have hcost : cost a b ≤ 1 := by
      unfold cost
      split <;> omega
    rw [levenshtein_cons_cons]
    omega

/-- The recursion is the cost of some alignment. -/
theorem aligned_levenshtein (s t : List α) : Aligned s t (levenshtein s t) := by
  induction s, t using levenshtein.induct with
  | case1 t =>
    rw [levenshtein_nil_left]
    exact (Aligned.to_nil t).symm
  | case2 a s =>
    rw [levenshtein_nil_right]
    exact .to_nil (a :: s)
  | case3 a s b t ihDelete ihInsert ihKeep =>
    rw [levenshtein_cons_cons]
    rcases min_choice (levenshtein s (b :: t) + 1)
      (min (levenshtein (a :: s) t + 1) (levenshtein s t + cost a b)) with h | h
    · rw [h]
      exact .delete a ihDelete
    · rw [h]
      rcases min_choice (levenshtein (a :: s) t + 1) (levenshtein s t + cost a b) with h' | h'
      · rw [h']
        exact .insert b ihInsert
      · rw [h']
        by_cases hab : a = b
        · subst hab
          rw [show cost a a = 0 from if_pos rfl]
          exact .keep a ihKeep
        · rw [show cost a b = 1 from if_neg hab]
          exact .substitute a b ihKeep

/-- The recursion computes the **least number of edits**. -/
theorem levenshtein_isLeast (s t : List α) : IsLeast {n | Edits n s t} (levenshtein s t) := by
  refine ⟨(aligned_levenshtein s t).edits, ?_⟩
  intro n hn
  obtain ⟨m, hm, ha⟩ := Edits.aligned hn
  exact ha.levenshtein_le.trans hm

theorem levenshtein_comm (s t : List α) : levenshtein s t = levenshtein t s :=
  le_antisymm (aligned_levenshtein t s).symm.levenshtein_le
    (aligned_levenshtein s t).symm.levenshtein_le

@[simp] theorem levenshtein_self (s : List α) : levenshtein s s = 0 :=
  Nat.le_zero.mp (Aligned.refl s).levenshtein_le

theorem length_le_add_levenshtein (s t : List α) : s.length ≤ t.length + levenshtein s t :=
  (aligned_levenshtein s t).length_le

theorem levenshtein_reverse (s t : List α) :
    levenshtein s.reverse t.reverse = levenshtein s t := by
  refine le_antisymm (aligned_levenshtein s t).reverse.levenshtein_le ?_
  have h := (aligned_levenshtein s.reverse t.reverse).reverse.levenshtein_le
  rwa [List.reverse_reverse, List.reverse_reverse] at h

/-- The recursion at the **last** elements. -/
theorem levenshtein_concat (a b : α) (s t : List α) :
    levenshtein (s ++ [a]) (t ++ [b]) =
      min (levenshtein s (t ++ [b]) + 1)
        (min (levenshtein (s ++ [a]) t + 1) (levenshtein s t + cost a b)) := by
  rw [← levenshtein_reverse (s ++ [a]) (t ++ [b]), ← levenshtein_reverse s (t ++ [b]),
    ← levenshtein_reverse (s ++ [a]) t, ← levenshtein_reverse s t]
  simp only [List.reverse_append, List.reverse_singleton, List.singleton_append]
  exact levenshtein_cons_cons a b s.reverse t.reverse

/-! ### The distance to a suffix -/

/-- The least distance from `s` to a suffix of `t`. -/
def suffixDistance (s : List α) : List α → ℕ
  | [] => levenshtein s []
  | b :: t => min (levenshtein s (b :: t)) (suffixDistance s t)

@[simp] theorem suffixDistance_nil_right (s : List α) : suffixDistance s [] = s.length :=
  levenshtein_nil_right s

theorem suffixDistance_cons (s : List α) (b : α) (t : List α) :
    suffixDistance s (b :: t) = min (levenshtein s (b :: t)) (suffixDistance s t) := rfl

@[simp] theorem suffixDistance_nil_left (t : List α) : suffixDistance [] t = 0 := by
  induction t with
  | nil => simp
  | cons b t ih => rw [suffixDistance_cons, ih, Nat.min_zero]

theorem suffixDistance_le (h : u <:+ t) : suffixDistance s t ≤ levenshtein s u := by
  induction t with
  | nil =>
    rw [List.suffix_nil.mp h]
    exact le_rfl
  | cons b t ih =>
    rw [suffixDistance_cons]
    rcases List.suffix_cons_iff.mp h with rfl | hu
    · exact min_le_left _ _
    · exact (min_le_right _ _).trans (ih hu)

theorem exists_suffixDistance_eq (s t : List α) :
    ∃ u, u <:+ t ∧ suffixDistance s t = levenshtein s u := by
  induction t with
  | nil => exact ⟨[], List.suffix_rfl, rfl⟩
  | cons b t ih =>
    rw [suffixDistance_cons]
    rcases min_choice (levenshtein s (b :: t)) (suffixDistance s t) with h | h
    · exact ⟨b :: t, List.suffix_rfl, h⟩
    · obtain ⟨u, hu, heq⟩ := ih
      exact ⟨u, hu.trans (List.suffix_cons b t), h.trans heq⟩

/-- The distance to a suffix is the distance itself when **no suffix is closer**. -/
theorem suffixDistance_eq_iff (s t : List α) :
    suffixDistance s t = levenshtein s t ↔ ∀ u, u <:+ t → levenshtein s t ≤ levenshtein s u := by
  constructor
  · intro h u hu
    rw [← h]
    exact suffixDistance_le hu
  · intro h
    obtain ⟨u, hu, heq⟩ := exists_suffixDistance_eq s t
    refine le_antisymm (suffixDistance_le List.suffix_rfl) ?_
    rw [heq]
    exact h u hu

/-- The recursion at the last elements, once more: only the first row is another one. -/
theorem suffixDistance_concat (a b : α) (s t : List α) :
    suffixDistance (s ++ [a]) (t ++ [b]) =
      min (suffixDistance s (t ++ [b]) + 1)
        (min (suffixDistance (s ++ [a]) t + 1) (suffixDistance s t + cost a b)) := by
  induction t with
  | nil =>
    have hrec := levenshtein_concat a b s []
    simp only [List.nil_append, levenshtein_nil_right, List.length_append,
      List.length_singleton] at hrec
    simp only [List.nil_append, suffixDistance_cons, suffixDistance_nil_right, List.length_append,
      List.length_singleton]
    omega
  | cons c t ih =>
    have hrec := levenshtein_concat a b s (c :: t)
    simp only [List.cons_append] at hrec
    simp only [List.cons_append, suffixDistance_cons]
    rw [hrec, ih, min_min_min_comm, min_min_min_comm (_ + 1) (_ + cost a b),
      Nat.add_min_add_right, Nat.add_min_add_right, Nat.add_min_add_right]

end Distance

end LearnNetlib.EditDistance
