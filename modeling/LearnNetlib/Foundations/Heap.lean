import Mathlib.Data.List.Sort
import Mathlib.Order.Defs.Unbundled
import Mathlib.Tactic.Common

/-!
# Strict weak orders, heaps in a list, and the algorithms on them

A comparison is a `Bool`-valued function; sequences are sorted and heaps are built **by** it: what
comes first under the comparison comes last out of the heap.

* `WeaklyOrders` — the comparison is a strict weak order; `WeaklyOrders.not_trans`, the rule the
  rest uses;
* `Least`, `Sorted`, `IsHeap` — with `IsHeap.front_least`, the front of a heap;
* `Algorithms` — heap and sort functions with what the standard promises of them, whatever they do
  inside;
* `Algorithms.ofMergeSort` — one set of such functions.
-/

namespace LearnNetlib.Heap

variable {T : Type*} {comp : T → T → Bool}

/-! ### The order -/

/-- The comparison is a strict weak order. -/
abbrev WeaklyOrders (comp : T → T → Bool) : Prop :=
  IsStrictWeakOrder T fun a b => comp a b = true

namespace WeaklyOrders

theorem irrefl (h : WeaklyOrders comp) (a : T) : comp a a = false := by
  have hirrefl := h.toIrrefl.irrefl a
  simpa using hirrefl

theorem trans (h : WeaklyOrders comp) {a b c : T} (hab : comp a b = true) (hbc : comp b c = true) :
    comp a c = true :=
  h.toIsTrans.trans a b c hab hbc

theorem asymm (h : WeaklyOrders comp) {a b : T} (hab : comp a b = true) : comp b a = false := by
  by_contra hba
  rw [Bool.not_eq_false] at hba
  have haa := h.trans hab hba
  rw [h.irrefl] at haa
  contradiction

/-- **The negation is transitive**, which is what makes a strict order weak. -/
theorem not_trans (h : WeaklyOrders comp) {a b c : T} (hab : comp a b = false)
    (hbc : comp b c = false) : comp a c = false := by
  by_contra hac
  rw [Bool.not_eq_false] at hac
  have hba : comp b a = false := by
    by_contra hba
    rw [Bool.not_eq_false] at hba
    have hbc' := h.trans hba hac
    rw [hbc] at hbc'
    contradiction
  have hcb : comp c b = false := by
    by_contra hcb
    rw [Bool.not_eq_false] at hcb
    have hab' := h.trans hac hcb
    rw [hab] at hab'
    contradiction
  have hincomp := h.incomp_trans a b c ⟨by simp [hab], by simp [hba]⟩ ⟨by simp [hbc], by simp [hcb]⟩
  exact hincomp.1 hac

theorem of_linearOrder {α : Type*} [LinearOrder α] :
    WeaklyOrders fun a b : α => decide (b < a) where
  irrefl a := by simp
  trans a b c hab hbc := by
    simp only [decide_eq_true_eq] at hab hbc ⊢
    exact hbc.trans hab
  incomp_trans a b c hab hbc := by
    simp only [decide_eq_true_eq, not_lt] at hab hbc ⊢
    exact ⟨hab.1.trans hbc.1, hbc.2.trans hab.2⟩

end WeaklyOrders

/-- No element of the list comes after `a`. -/
def Least (comp : T → T → Bool) (a : T) (l : List T) : Prop := ∀ x ∈ l, comp a x = false

/-- No element comes before an earlier one. -/
def Sorted (comp : T → T → Bool) (l : List T) : Prop := l.Pairwise fun a b => comp b a = false

theorem Least.perm {a : T} {l l' : List T} (h : Least comp a l) (hp : l'.Perm l) :
    Least comp a l' :=
  fun x hx => h x (hp.mem_iff.mp hx)

/-! ### Heaps -/

/-- No element comes before its parent: `[first, last)` is a heap. -/
def IsHeap (comp : T → T → Bool) (l : List T) : Prop :=
  ∀ i p x, 0 < i → l[(i - 1) / 2]? = some p → l[i]? = some x → comp p x = false

theorem IsHeap.getElem_least (h : WeaklyOrders comp) {x : T} {l : List T}
    (hheap : IsHeap comp (x :: l)) (i : ℕ) : ∀ y, (x :: l)[i]? = some y → comp x y = false := by
  -- from a position to its parent, until the front
  induction i using Nat.strong_induction_on with
  | _ i ih =>
    intro y hy
    rcases Nat.eq_zero_or_pos i with rfl | hpos
    · simp only [List.getElem?_cons_zero, Option.some.injEq] at hy
      rw [← hy]
      exact h.irrefl x
    · have hi : i < (x :: l).length := (List.getElem?_eq_some_iff.mp hy).1
      have hparent : (x :: l)[(i - 1) / 2]? = some ((x :: l)[(i - 1) / 2]) :=
        List.getElem?_eq_getElem (by omega)
      exact h.not_trans (ih _ (by omega) _ hparent) (hheap i _ y hpos hparent hy)

/-- **The front of a heap.** -/
theorem IsHeap.front_least (h : WeaklyOrders comp) {x : T} {l : List T}
    (hheap : IsHeap comp (x :: l)) : Least comp x (x :: l) := by
  intro y hy
  obtain ⟨i, hi⟩ := List.mem_iff_getElem?.mp hy
  exact hheap.getElem_least h i y hi

/-- A sorted list read from the back. -/
theorem Sorted.isHeap_reverse {l : List T} (h : Sorted comp l) : IsHeap comp l.reverse := by
  intro i p x hpos hp hx
  obtain ⟨hplt, rfl⟩ := List.getElem?_eq_some_iff.mp hp
  obtain ⟨hxlt, rfl⟩ := List.getElem?_eq_some_iff.mp hx
  have hback : l.reverse.Pairwise fun a b => comp a b = false := List.pairwise_reverse.mpr h
  exact List.pairwise_iff_getElem.mp hback _ _ hplt hxlt (by omega)

/-! ### The algorithms -/

/-- Heap and sort functions that do what the standard says of `std::make_heap`, `std::push_heap`,
`std::pop_heap`, `std::sort_heap` and `std::sort` for the comparison `comp`. -/
structure Algorithms (comp : T → T → Bool) where
  makeHeap : List T → List T
  pushHeap : List T → List T
  popHeap : List T → List T
  sortHeap : List T → List T
  sort : List T → List T
  makeHeap_spec : ∀ l, (makeHeap l).Perm l ∧ IsHeap comp (makeHeap l)
  /-- All but the last element form a heap; afterwards all do. -/
  pushHeap_spec : ∀ l x, IsHeap comp l →
    (pushHeap (l ++ [x])).Perm (l ++ [x]) ∧ IsHeap comp (pushHeap (l ++ [x]))
  /-- The first element goes to the last place, whatever has become of it, and the others form a
  heap. -/
  popHeap_spec : ∀ x l, IsHeap comp (x :: l) → ∀ y,
    ∃ h, popHeap (y :: l) = h ++ [y] ∧ h.Perm l ∧ IsHeap comp h
  sortHeap_spec : ∀ l, IsHeap comp l → (sortHeap l).Perm l ∧ Sorted comp (sortHeap l)
  sort_spec : ∀ l, (sort l).Perm l ∧ Sorted comp (sort l)

namespace Algorithms

/-- Sort by the comparison. -/
def sortBy (comp : T → T → Bool) (l : List T) : List T := l.mergeSort fun a b => !comp b a

theorem sortBy_spec (h : WeaklyOrders comp) (l : List T) :
    (sortBy comp l).Perm l ∧ Sorted comp (sortBy comp l) := by
  refine ⟨List.mergeSort_perm l _, ?_⟩
  have htrans : ∀ a b c : T, (!comp b a) = true → (!comp c b) = true → (!comp c a) = true := by
    intro a b c hab hbc
    simp only [Bool.not_eq_true'] at hab hbc ⊢
    exact h.not_trans hbc hab
  have htotal : ∀ a b : T, (!comp b a || !comp a b) = true := by
    intro a b
    by_cases hab : comp a b = true
    · simp [h.asymm hab]
    · simp [hab]
  have hsorted : (l.mergeSort fun a b => !comp b a).Pairwise fun a b => (!comp b a) = true :=
    List.pairwise_mergeSort htrans htotal l
  exact hsorted.imp (by intro a b hab; simpa using hab)

/-- A sorted list read from the back is a heap, and every operation sorts again. -/
def ofMergeSort (h : WeaklyOrders comp) : Algorithms comp where
  makeHeap l := (sortBy comp l).reverse
  pushHeap l := (sortBy comp l).reverse
  popHeap
    | [] => []
    | y :: l => (sortBy comp l).reverse ++ [y]
  sortHeap := sortBy comp
  sort := sortBy comp
  makeHeap_spec l :=
    ⟨(List.reverse_perm _).trans (sortBy_spec h l).1, (sortBy_spec h l).2.isHeap_reverse⟩
  pushHeap_spec _ _ _ :=
    ⟨(List.reverse_perm _).trans (sortBy_spec h _).1, (sortBy_spec h _).2.isHeap_reverse⟩
  popHeap_spec _ l _ _ :=
    ⟨(sortBy comp l).reverse, rfl, (List.reverse_perm _).trans (sortBy_spec h l).1,
      (sortBy_spec h l).2.isHeap_reverse⟩
  sortHeap_spec l _ := sortBy_spec h l
  sort_spec := sortBy_spec h

end Algorithms

end LearnNetlib.Heap
