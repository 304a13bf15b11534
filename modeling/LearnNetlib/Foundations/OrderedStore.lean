import LearnNetlib.Foundations.SortedCursor
import Mathlib.Data.List.Lex

/-!
# Ordered key-value stores

A store keeps at most one value under a key and can be walked in key order.

* `OrderedStore` — the operations, `OrderedStore.Lawful` — what is promised about them;
* `get_eq_none`, `mem_put_of_get_eq_none` — the laws callers use;
* `mem_seek` — a walk from a key on shows exactly the entries at or above it;
* `isPrefix_of_le_of_le` — keys between two keys with a prefix have it;
* `sortedList` — the store as its sorted list of entries, which carries its sortedness.
-/

namespace LearnNetlib.Foundations

open SortedCursor

variable {κ ν σ : Type*}

/-- An ordered store with states `σ`. -/
structure OrderedStore (κ ν σ : Type*) where
  empty : σ
  get : σ → κ → Option ν
  put : σ → κ → ν → σ
  /-- What an iterator walks through. -/
  entries : σ → List (κ × ν)

namespace OrderedStore

variable [LinearOrder κ] {S : OrderedStore κ ν σ}

/-- A faithful sorted map. -/
structure Lawful (S : OrderedStore κ ν σ) : Prop where
  entries_empty : S.entries S.empty = []
  sorted : ∀ s, Sorted (S.entries s)
  get_eq_some : ∀ s k v, S.get s k = some v ↔ (k, v) ∈ S.entries s
  mem_put : ∀ s k v e, e ∈ S.entries (S.put s k v) ↔ e = (k, v) ∨ e ∈ S.entries s ∧ e.1 ≠ k

/-- `Seek(k)`: what an iterator has in front of it then. -/
def seek (S : OrderedStore κ ν σ) (s : σ) (k : κ) : List (κ × ν) := seekTo k (S.entries s)

namespace Lawful

variable (hS : S.Lawful)
include hS

theorem get_empty (k : κ) : S.get S.empty k = none := by
  rw [Option.eq_none_iff_forall_ne_some]
  intro v hv
  rw [hS.get_eq_some, hS.entries_empty] at hv
  exact absurd hv List.not_mem_nil

theorem get_eq_none {s : σ} {k : κ} : S.get s k = none ↔ ∀ e ∈ S.entries s, e.1 ≠ k := by
  rw [Option.eq_none_iff_forall_ne_some]
  constructor
  · rintro h ⟨k', v⟩ he rfl
    exact h v ((hS.get_eq_some _ _ _).mpr he)
  · intro h v hv
    exact h _ ((hS.get_eq_some _ _ _).mp hv) rfl

/-- Putting under a new key only adds. -/
theorem mem_put_of_get_eq_none {s : σ} {k : κ} (h : S.get s k = none) (v : ν) (e : κ × ν) :
    e ∈ S.entries (S.put s k v) ↔ e = (k, v) ∨ e ∈ S.entries s := by
  rw [hS.mem_put]
  constructor
  · rintro (he | ⟨he, -⟩)
    · exact .inl he
    · exact .inr he
  · rintro (he | he)
    · exact .inl he
    · exact .inr ⟨he, hS.get_eq_none.mp h e he⟩

theorem mem_seek (s : σ) (k : κ) (e : κ × ν) : e ∈ S.seek s k ↔ e ∈ S.entries s ∧ k ≤ e.1 :=
  mem_seekTo_iff (hS.sorted s) e

end Lawful

/-- **Keys with a common prefix lie together.** -/
theorem isPrefix_of_le_of_le {α : Type*} [LinearOrder α] {p a b c : List α} (ha : p <+: a)
    (hc : p <+: c) (hab : a ≤ b) (hbc : b ≤ c) : p <+: b := by
  induction p generalizing a b c with
  | nil => exact List.nil_prefix
  | cons x p ih =>
    obtain ⟨a, rfl, hpa⟩ := List.cons_prefix_iff.mp ha
    obtain ⟨c, rfl, hpc⟩ := List.cons_prefix_iff.mp hc
    cases b with
    | nil => exact absurd (List.nil_lt_cons x a) (not_lt.mpr hab)
    | cons y b =>
      have hyx : ¬ y < x := fun h => not_lt.mpr hab (List.cons_lt_cons_iff.mpr (.inl h))
      have hxy : ¬ x < y := fun h => not_lt.mpr hbc (List.cons_lt_cons_iff.mpr (.inl h))
      obtain rfl : x = y := le_antisymm (not_lt.mp hyx) (not_lt.mp hxy)
      refine List.cons_prefix_cons.mpr ⟨rfl, ih hpa hpc (not_lt.mp fun h => ?_) (not_lt.mp fun h => ?_)⟩
      · exact not_lt.mpr hab (List.cons_lt_cons_iff.mpr (.inr ⟨rfl, h⟩))
      · exact not_lt.mpr hbc (List.cons_lt_cons_iff.mpr (.inr ⟨rfl, h⟩))

/-! ### The store as a sorted list -/

/-- Put into a sorted list. -/
def putList (k : κ) (v : ν) : List (κ × ν) → List (κ × ν)
  | [] => [(k, v)]
  | e :: es =>
    if k < e.1 then (k, v) :: e :: es
    else if e.1 < k then e :: putList k v es
    else (k, v) :: es

theorem mem_putList {k : κ} {v : ν} {es : List (κ × ν)} (hs : Sorted es) (e : κ × ν) :
    e ∈ putList k v es ↔ e = (k, v) ∨ e ∈ es ∧ e.1 ≠ k := by
  induction es with
  | nil => simp [putList]
  | cons a es ih =>
    obtain ⟨ha, hes⟩ := List.pairwise_cons.mp hs
    rw [putList]
    rcases lt_trichotomy k a.1 with hlt | heq | hgt
    · -- the new key is below all others
      rw [if_pos hlt, List.mem_cons]
      refine or_congr_right ⟨fun he => ⟨he, ?_⟩, And.left⟩
      rcases List.mem_cons.mp he with rfl | he
      · exact hlt.ne'
      · exact (hlt.trans (ha e he)).ne'
    · rw [if_neg heq.not_lt, if_neg heq.not_gt, List.mem_cons]
      refine or_congr_right ⟨fun he => ⟨.tail _ he, heq ▸ (ha e he).ne'⟩, ?_⟩
      rintro ⟨he, hne⟩
      rcases List.mem_cons.mp he with rfl | he
      · exact absurd heq.symm hne
      · exact he
    · rw [if_neg hgt.not_gt, if_pos hgt, List.mem_cons, ih hes, List.mem_cons]
      constructor
      · rintro (rfl | rfl | ⟨he, hne⟩)
        · exact .inr ⟨.inl rfl, hgt.ne⟩
        · exact .inl rfl
        · exact .inr ⟨.inr he, hne⟩
      · rintro (rfl | ⟨rfl | he, hne⟩)
        · exact .inr (.inl rfl)
        · exact .inl rfl
        · exact .inr (.inr ⟨he, hne⟩)

theorem putList_sorted {k : κ} {v : ν} {es : List (κ × ν)} (hs : Sorted es) :
    Sorted (putList k v es) := by
  induction es with
  | nil => exact List.pairwise_singleton _ _
  | cons a es ih =>
    obtain ⟨ha, hes⟩ := List.pairwise_cons.mp hs
    rw [putList]
    rcases lt_trichotomy k a.1 with hlt | heq | hgt
    · rw [if_pos hlt]
      refine List.pairwise_cons.mpr ⟨fun e he => ?_, hs⟩
      rcases List.mem_cons.mp he with rfl | he
      · exact hlt
      · exact hlt.trans (ha e he)
    · rw [if_neg heq.not_lt, if_neg heq.not_gt]
      exact List.pairwise_cons.mpr ⟨fun e he => heq ▸ ha e he, hes⟩
    · rw [if_neg hgt.not_gt, if_pos hgt]
      refine List.pairwise_cons.mpr ⟨fun e he => ?_, ih hes⟩
      rcases (mem_putList hes e).mp he with rfl | ⟨he, -⟩
      · exact hgt
      · exact ha e he

/-- The sorted list of its entries as a store. -/
def sortedList (κ ν : Type*) [LinearOrder κ] :
    OrderedStore κ ν { es : List (κ × ν) // Sorted es } where
  empty := ⟨[], List.Pairwise.nil⟩
  get s k := (s.1.find? fun e => decide (e.1 = k)).map Prod.snd
  put s k v := ⟨putList k v s.1, putList_sorted s.2⟩
  entries s := s.1

theorem sortedList_lawful : (sortedList κ ν).Lawful where
  entries_empty := rfl
  sorted s := s.2
  get_eq_some := by
    rintro ⟨es, hs⟩ k v
    show (es.find? fun e => decide (e.1 = k)).map Prod.snd = some v ↔ (k, v) ∈ es
    induction es with
    | nil => simp
    | cons a es ih =>
      obtain ⟨ha, hes⟩ := List.pairwise_cons.mp hs
      by_cases hk : a.1 = k
      · obtain ⟨k', w⟩ := a
        subst hk
        have hrest : (k', v) ∉ es := fun he => (ha _ he).ne rfl
        rw [List.find?_cons_of_pos (by simp), List.mem_cons, or_iff_left hrest]
        simp [eq_comm]
      · rw [List.find?_cons_of_neg (by simpa using hk), ih hes, List.mem_cons]
        have hne : (k, v) ≠ a := fun he => hk (congrArg Prod.fst he).symm
        simp [hne]
  mem_put s _ _ e := mem_putList s.2 e

end OrderedStore

end LearnNetlib.Foundations
