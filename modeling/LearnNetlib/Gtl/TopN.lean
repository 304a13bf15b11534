import LearnNetlib.Base.Bytes
import LearnNetlib.Foundations.Heap
import LearnNetlib.Foundations.Runs
import Mathlib.Data.List.Induction

/-!
# The greatest elements pushed (`gtl/top_n.h`)

* `Keeps` — what a `TopN` is for: of the elements pushed it keeps `limit` many, and none of those it
  lost is greater than one it keeps;
* `TopN`, `pushInternal`, `peekBottom`, the four extractions, `reset` — the code, for any heap and
  sort algorithms that do what the standard says, and whatever a moved-from element holds;
* `RepOk` — the three documented representations;
* `pushInternal_sound`, `peekBottom_sound` — the two operations, one lemma each;
* `inReach_of_peekBottom` — `peek_bottom` keeps the place of the bottom in an `int`: it finds a least
  element only among the first `2^31`;
* **`topN_correct_iff`** — every run is right exactly when every `peek_bottom` has one there.
-/

namespace LearnNetlib.Gtl

open Heap Runs

variable {T : Type} {cmp : T → T → Bool}

/-! ### What is kept -/

/-- Of `pushed`, `limit` elements are kept and the others lost; none lost is greater than one kept. -/
structure Keeps (cmp : T → T → Bool) (limit : ℕ) (pushed kept lost : List T) : Prop where
  length : kept.length = min limit pushed.length
  perm : (kept ++ lost).Perm pushed
  below : ∀ d ∈ lost, ∀ k ∈ kept, cmp d k = false

namespace Keeps

variable {limit : ℕ} {pushed kept kept' lost : List T} {d v : T}

theorem nil (cmp : T → T → Bool) (limit : ℕ) : Keeps cmp limit [] [] [] where
  length := by simp
  perm := .nil
  below := by simp

/-- There was room. -/
theorem grow (h : Keeps cmp limit pushed kept []) (hroom : kept.length < limit)
    (hkept : kept'.Perm (kept ++ [v])) : Keeps cmp limit (pushed ++ [v]) kept' [] where
  length := by
    have hlen := h.length
    have hlen' := hkept.length_eq
    simp only [List.length_append, List.length_singleton] at hlen' ⊢
    omega
  perm := by
    have hperm := h.perm
    rw [List.append_nil] at hperm ⊢
    exact hkept.trans (hperm.append_right [v])
  below := by simp

/-- There was none: a least one of the elements kept and the new one goes. -/
theorem replace (hcmp : WeaklyOrders cmp) (h : Keeps cmp limit pushed kept lost)
    (hfull : kept.length = limit) (hkept : (kept' ++ [d]).Perm (kept ++ [v]))
    (hleast : Least cmp d kept') : Keeps cmp limit (pushed ++ [v]) kept' (lost ++ [d]) where
  length := by
    have hlen := h.length
    have hlen' := hkept.length_eq
    simp only [List.length_append, List.length_singleton] at hlen' ⊢
    omega
  perm := by
    calc kept' ++ (lost ++ [d])
        _ |>.Perm (kept' ++ ([d] ++ lost)) := List.perm_append_comm.append_left kept'
        _ = kept' ++ [d] ++ lost := (List.append_assoc ..).symm
        _ |>.Perm (kept ++ [v] ++ lost) := hkept.append_right lost
        _ = kept ++ ([v] ++ lost) := List.append_assoc ..
        _ |>.Perm (kept ++ (lost ++ [v])) := List.perm_append_comm.append_left kept
        _ = kept ++ lost ++ [v] := (List.append_assoc ..).symm
        _ |>.Perm (pushed ++ [v]) := h.perm.append_right [v]
  below := by
    intro e he k hk
    rw [List.mem_append, List.mem_singleton] at he
    rcases he with he | rfl
    · -- an element lost earlier: `d` was kept then, or it is the new one
      have hd : d ∈ kept ++ [v] := hkept.mem_iff.mp (by simp)
      rw [List.mem_append, List.mem_singleton] at hd
      rcases hd with hd | rfl
      · exact hcmp.not_trans (h.below e he d hd) (hleast k hk)
      · have hsame : kept'.Perm kept := (List.perm_append_right_iff [d]).mp hkept
        exact h.below e he k (hsame.mem_iff.mp hk)
    · exact hleast k hk

theorem perm_kept (h : Keeps cmp limit pushed kept lost) (hkept : kept'.Perm kept) :
    Keeps cmp limit pushed kept' lost where
  length := hkept.length_eq.trans h.length
  perm := (hkept.append_right lost).trans h.perm
  below d hd k hk := h.below d hd k (hkept.mem_iff.mp hk)

end Keeps

/-! ### The component -/

/-- `TopN::State`. -/
inductive State
  | unordered
  | bottomKnown
  | heapSorted
  deriving DecidableEq, Repr

/-- `TopN`. The comparison is a parameter of the operations. -/
structure TopN (T : Type) where
  elements : List T
  limit : ℕ
  state : State

namespace TopN

/-- `TopN(size_t limit)`. -/
def new (limit : ℕ) : TopN T := ⟨[], limit, .unordered⟩

/-- `size`. -/
def size (s : TopN T) : ℕ := min s.elements.length s.limit

/-- The elements from `unsorted_begin` to `unsorted_end`. -/
def kept (s : TopN T) : List T := s.elements.take s.size

/-- Exchange the elements at `i` and `j`. -/
def swapAt (l : List T) (i j : ℕ) : List T :=
  match l[i]?, l[j]? with
  | some a, some b => (l.set i b).set j a
  | _, _ => l

/-- `if (dropped) *dropped = v`, for a pointer that is given or null. -/
def report (dropped : Bool) (v : T) : Option T := if dropped then some v else none

/-- `if (dropped) *dropped = std::move(elements_.front()); std::pop_heap(...)`. A front that has been
moved from holds whatever its move leaves. -/
def popBottom (std : Algorithms cmp) (moved : T → T) (dropped : Bool) :
    List T → Access (Option T × List T)
  | [] => .error .outOfBounds
  | x :: l => .ok (report dropped x, std.popHeap ((if dropped then moved x else x) :: l))

/-- `elements_.push_back(v)`, and the exchange with the front that keeps the bottom there. -/
def pushBack (cmp : T → T → Bool) (s : TopN T) (v : T) : List T :=
  let elements := s.elements ++ [v]
  if s.state = .unordered ∨ cmp (elements.getLastD v) (elements.headD v) = true then elements
  else swapAt elements 0 (elements.length - 1)

/-- `PushInternal`. (`limit_ + 1` wraps to 0 for the greatest `size_t`, and then no size equals it;
neither does a size equal the natural number.) -/
def pushInternal (std : Algorithms cmp) (moved : T → T) (s : TopN T) (v : T) (dropped : Bool) :
    Access (Option T × TopN T) :=
  if s.limit = 0 then .ok (report dropped v, s)
  else if s.state ≠ .heapSorted then
    let elements := pushBack cmp s v
    if elements.length = s.limit + 1 then do
      let (reported, elements) ← popBottom std moved dropped (std.makeHeap elements)
      .ok (reported, ⟨elements, s.limit, .heapSorted⟩)
    else .ok (none, ⟨elements, s.limit, s.state⟩)
  else
    match s.elements.head? with
    | none => .error .outOfBounds
    | some front =>
      if cmp v front then do
        let (reported, elements) ←
          popBottom std moved dropped (std.pushHeap (s.elements.dropLast ++ [v]))
        .ok (reported, ⟨elements, s.limit, s.state⟩)
      else .ok (report dropped v, s)

/-- `elements_[min_candidate]`: a negative `int` becomes a `size_t` no vector reaches. -/
def elementAt (elements : List T) (minCandidate : ℤ) : Access T :=
  if minCandidate < 0 then .error .outOfBounds
  else
    match elements[minCandidate.toNat]? with
    | some x => .ok x
    | none => .error .outOfBounds

/-- The linear scan, for the elements from index `i` on: `min_candidate = i` stores a `size_t` in an
`int`. -/
def scan (cmp : T → T → Bool) (elements : List T) : List T → ℕ → ℤ → Access ℤ
  | [], _, minCandidate => .ok minCandidate
  | x :: rest, i, minCandidate => do
    let m ← elementAt elements minCandidate
    scan cmp elements rest (i + 1) (if cmp m x then Int.bmod i (2 ^ 32) else minCandidate)

/-- `if (min_candidate != 0) swap(elements_[0], elements_[min_candidate])`. -/
def moveToFront (elements : List T) (minCandidate : ℤ) : List T :=
  if minCandidate ≠ 0 then swapAt elements 0 minCandidate.toNat else elements

/-- `peek_bottom`. -/
def peekBottom (cmp : T → T → Bool) (s : TopN T) : Access (T × TopN T) :=
  if s.size = 0 then .error .assertFailed
  else if s.state = .unordered then do
    let minCandidate ← scan cmp s.elements (s.elements.drop 1) 1 0
    let _ ← elementAt s.elements minCandidate
    let elements := moveToFront s.elements minCandidate
    let front ← elementAt elements 0
    .ok (front, ⟨elements, s.limit, .bottomKnown⟩)
  else do
    let front ← elementAt s.elements 0
    .ok (front, s)

/-- `ExtractNondestructive`. -/
def extractNondestructive (std : Algorithms cmp) (s : TopN T) : List T :=
  if s.state ≠ .heapSorted then std.sort s.elements else std.sortHeap s.elements.dropLast

/-- `ExtractUnsortedNondestructive`. -/
def extractUnsortedNondestructive (s : TopN T) : List T :=
  if s.state = .heapSorted then s.elements.dropLast else s.elements

/-- `Extract`: the elements are swapped out of the object. -/
def extract (std : Algorithms cmp) (s : TopN T) : List T × TopN T :=
  let out := s.elements
  let s' : TopN T := ⟨[], s.limit, s.state⟩
  (if s.state ≠ .heapSorted then std.sort out else std.sortHeap out.dropLast, s')

/-- `ExtractUnsorted`. -/
def extractUnsorted (s : TopN T) : List T × TopN T :=
  let out := s.elements
  let s' : TopN T := ⟨[], s.limit, s.state⟩
  (if s.state = .heapSorted then out.dropLast else out, s')

/-- `Reset`. -/
def reset (s : TopN T) : TopN T := ⟨[], s.limit, .unordered⟩

/-! ### Exchanging two elements -/

theorem swapAt_perm (l : List T) (i j : ℕ) : (swapAt l i j).Perm l := by
  unfold swapAt
  split
  · rename_i a b ha hb
    obtain ⟨hi, rfl⟩ := List.getElem?_eq_some_iff.mp ha
    obtain ⟨hj, rfl⟩ := List.getElem?_eq_some_iff.mp hb
    exact List.set_set_perm hi hj
  · exact .refl l

theorem swapAt_zero_front {l : List T} {j : ℕ} {x : T} (hx : l[j]? = some x) :
    (swapAt l 0 j)[0]? = some x := by
  obtain ⟨hj, hget⟩ := List.getElem?_eq_some_iff.mp hx
  have hzero : l[0]? = some l[0] := List.getElem?_eq_getElem (by omega)
  unfold swapAt
  rw [hx, hzero]
  dsimp only
  rcases Nat.eq_zero_or_pos j with rfl | hpos
  · rw [List.getElem?_set_self (by rw [List.length_set]; exact hj)]
    exact congrArg some hget
  · rw [List.getElem?_set_ne (by omega), List.getElem?_set_self (by omega)]

theorem moveToFront_perm (l : List T) (c : ℤ) : (moveToFront l c).Perm l := by
  unfold moveToFront
  split
  · exact swapAt_perm _ _ _
  · exact .refl l

theorem moveToFront_front {l : List T} {c : ℤ} {x : T} (hx : l[c.toNat]? = some x) :
    (moveToFront l c)[0]? = some x := by
  unfold moveToFront
  by_cases hzero : c = 0
  · rw [if_neg (not_not.mpr hzero)]
    rwa [hzero, Int.toNat_zero] at hx
  · rw [if_pos hzero]
    exact swapAt_zero_front hx

/-! ### The linear scan -/

theorem elementAt_natCast {elements : List T} {i : ℕ} {x : T} (h : elements[i]? = some x) :
    elementAt elements i = .ok x := by
  rw [elementAt, if_neg (by omega), Int.toNat_natCast, h]

theorem elementAt_zero {elements : List T} {x : T} (h : elements[0]? = some x) :
    elementAt elements 0 = .ok x :=
  elementAt_natCast h

theorem elementAt_eq_ok {elements : List T} {c : ℤ} {x : T} (h : elementAt elements c = .ok x) :
    0 ≤ c ∧ elements[c.toNat]? = some x := by
  rw [elementAt] at h
  split at h
  · contradiction
  · refine ⟨by omega, ?_⟩
    cases hx : elements[c.toNat]? with
    | none => simp [hx] at h
    | some y => simpa [hx] using h

/-- Whatever the scan finds is an `int`. -/
theorem scan_lt {elements rest : List T} {i : ℕ} {c c' : ℤ} (hc : c < 2 ^ 31)
    (h : scan cmp elements rest i c = .ok c') : c' < 2 ^ 31 := by
  induction rest generalizing i c with
  | nil =>
    simp only [scan, Except.ok.injEq] at h
    omega
  | cons x rest ih =>
    rw [scan] at h
    obtain ⟨m, -, h⟩ := Access.bind_eq_ok.mp h
    refine ih ?_ h
    split
    · have hlt := Int.bmod_lt (x := (i : ℤ)) (m := 2 ^ 32) (by decide)
      have hbound : (((2 ^ 32 : ℕ) : ℤ) + 1) / 2 = 2 ^ 31 := by decide
      rwa [hbound] at hlt
    · exact hc

/-- A least element among the first `2^31`. -/
def InReach (cmp : T → T → Bool) (elements : List T) : Prop :=
  ∃ x ∈ elements.take (2 ^ 31), Least cmp x elements

/-- **The scan** finds a least element if there is one in reach: a candidate behind the first `2^31`
would be greater than none before it. -/
theorem scan_least (hcmp : WeaklyOrders cmp) {elements : List T} (hreach : InReach cmp elements)
    (rest : List T) : ∀ (pre : List T) (c : ℕ) (m : T), elements = pre ++ rest →
      elements[c]? = some m → Least cmp m pre →
      ∃ c' : ℕ, ∃ m', scan cmp elements rest pre.length c = .ok c' ∧ elements[c']? = some m' ∧
        Least cmp m' elements := by
  induction rest with
  | nil =>
    intro pre c m helements hm hleast
    rw [List.append_nil] at helements
    exact ⟨c, m, rfl, hm, helements ▸ hleast⟩
  | cons x rest ih =>
    intro pre c m helements hm hleast
    have happ : elements = (pre ++ [x]) ++ rest := by simp [helements]
    rw [scan, elementAt_natCast hm, Access.ok_bind]
    by_cases hx : cmp m x = true
    · have hnear : pre.length < 2 ^ 31 := by
        by_contra hfar
        obtain ⟨g, hg, hgleast⟩ := hreach
        rw [helements, List.take_append_of_le_length (by omega)] at hg
        have hmg := hleast g (List.mem_of_mem_take hg)
        have hgx := hgleast x (by simp [helements])
        have hmx := hcmp.not_trans hmg hgx
        rw [hx] at hmx
        contradiction
      have hint : Int.bmod (pre.length : ℤ) (2 ^ 32) = (pre.length : ℤ) :=
        Int.bmod_eq_of_le (by omega) (by omega)
      rw [if_pos hx, hint]
      have hnext := ih (pre ++ [x]) pre.length x happ (by simp [helements])
        (by
          intro y hy
          rw [List.mem_append, List.mem_singleton] at hy
          rcases hy with hy | rfl
          · exact hcmp.not_trans (hcmp.asymm hx) (hleast y hy)
          · exact hcmp.irrefl y)
      rwa [List.length_append, List.length_singleton] at hnext
    · rw [if_neg hx]
      have hnext := ih (pre ++ [x]) c m happ hm
        (by
          intro y hy
          rw [List.mem_append, List.mem_singleton] at hy
          rcases hy with hy | rfl
          · exact hleast y hy
          · simpa using hx)
      rwa [List.length_append, List.length_singleton] at hnext

/-! ### The representations -/

/-- The documented representation of each state. -/
def RepOk (cmp : T → T → Bool) (s : TopN T) : Prop :=
  match s.state with
  | .unordered => s.elements.length ≤ s.limit
  | .bottomKnown =>
    s.elements.length ≤ s.limit ∧ ∃ b, s.elements[0]? = some b ∧ Least cmp b s.elements
  | .heapSorted =>
    0 < s.limit ∧ ∃ h spare, s.elements = h ++ [spare] ∧ h.length = s.limit ∧ IsHeap cmp h

theorem kept_of_length_le {s : TopN T} (h : s.elements.length ≤ s.limit) : s.kept = s.elements := by
  rw [kept, size, min_eq_left h, List.take_length]

theorem kept_of_spare {s : TopN T} {h : List T} {spare : T} (hs : s.elements = h ++ [spare])
    (hlen : h.length = s.limit) : s.kept = h := by
  have hsize : s.size = h.length := by
    rw [size, hs, List.length_append, List.length_singleton]
    omega
  rw [kept, hsize, hs, List.take_left]

theorem RepOk.kept_eq {s : TopN T} (h : RepOk cmp s) (hstate : s.state ≠ .heapSorted) :
    s.kept = s.elements := by
  unfold RepOk at h
  cases hcase : s.state with
  | unordered =>
    rw [hcase] at h
    exact kept_of_length_le h
  | bottomKnown =>
    rw [hcase] at h
    exact kept_of_length_le h.1
  | heapSorted => exact absurd hcase hstate

theorem RepOk.heapSorted {s : TopN T} (h : RepOk cmp s) (hstate : s.state = .heapSorted) :
    0 < s.limit ∧ s.kept.length = s.limit ∧ IsHeap cmp s.kept ∧ s.elements.dropLast = s.kept := by
  unfold RepOk at h
  rw [hstate] at h
  obtain ⟨hlimit, heap, spare, hs, hlen, hheap⟩ := h
  rw [kept_of_spare hs hlen]
  exact ⟨hlimit, hlen, hheap, by rw [hs, List.dropLast_concat]⟩

/-- The documented representation, of the elements the purpose of the component names. -/
structure Sound (cmp : T → T → Bool) (limit : ℕ) (s : TopN T) (pushed lost : List T) : Prop where
  limit_eq : s.limit = limit
  rep : RepOk cmp s
  keeps : Keeps cmp limit pushed s.kept lost
  /-- Nothing is lost before the heap is built. -/
  unlost : s.state ≠ .heapSorted → 0 < limit → lost = []

variable {limit : ℕ} {s : TopN T} {pushed lost : List T}

theorem sound_new (cmp : T → T → Bool) (limit : ℕ) : Sound cmp limit (new limit) [] [] where
  limit_eq := rfl
  rep := Nat.zero_le limit
  keeps := .nil cmp limit
  unlost _ _ := rfl

/-! ### Pushing -/

/-- The front of a heap is lost, and the others are a heap again. -/
theorem popBottom_spec (hcmp : WeaklyOrders cmp) (std : Algorithms cmp) (moved : T → T)
    (dropped : Bool) {heap : List T} (hheap : IsHeap cmp heap) (hne : heap ≠ []) :
    ∃ d h spare, popBottom std moved dropped heap = .ok (report dropped d, h ++ [spare]) ∧
      (h ++ [d]).Perm heap ∧ IsHeap cmp h ∧ Least cmp d h := by
  obtain ⟨x, l, rfl⟩ := List.exists_cons_of_ne_nil hne
  obtain ⟨h, hpop, hperm, hh⟩ := std.popHeap_spec x l hheap (if dropped then moved x else x)
  refine ⟨x, h, _, by rw [popBottom, hpop], ?_, hh, ?_⟩
  · exact (hperm.append_right [x]).trans List.perm_append_comm
  · intro y hy
    exact hheap.front_least hcmp y (List.mem_cons_of_mem _ (hperm.mem_iff.mp hy))

/-- The state after the bottom of a heap has been dropped. -/
theorem sound_heapSorted (hcmp : WeaklyOrders cmp) (hs : Sound cmp limit s pushed lost)
    (hfull : s.kept.length = limit) (hpos : 0 < limit) {h : List T} {d v spare : T}
    (hperm : (h ++ [d]).Perm (s.kept ++ [v])) (hheap : IsHeap cmp h) (hleast : Least cmp d h) :
    Sound cmp limit ⟨h ++ [spare], s.limit, .heapSorted⟩ (pushed ++ [v]) (lost ++ [d]) := by
  have hlen : h.length = limit := by
    have hlen := hperm.length_eq
    simp only [List.length_append, List.length_singleton] at hlen
    omega
  have hkept : kept (⟨h ++ [spare], s.limit, .heapSorted⟩ : TopN T) = h :=
    kept_of_spare rfl (hlen.trans hs.limit_eq.symm)
  refine ⟨hs.limit_eq, ?_, ?_, fun hne => absurd rfl hne⟩
  · exact ⟨hs.limit_eq ▸ hpos, h, spare, rfl, hlen.trans hs.limit_eq.symm, hheap⟩
  · rw [hkept]
    exact hs.keeps.replace hcmp hfull hperm hleast

theorem pushBack_perm (cmp : T → T → Bool) (s : TopN T) (v : T) :
    (pushBack cmp s v).Perm (s.elements ++ [v]) := by
  unfold pushBack
  dsimp only
  split
  · exact .refl _
  · exact swapAt_perm _ _ _

/-- The bottom stays in front. -/
theorem pushBack_front (hcmp : WeaklyOrders cmp) (hstate : s.state = .bottomKnown) {b : T}
    (hfront : s.elements[0]? = some b) (hleast : Least cmp b s.elements) (v : T) :
    ∃ b', (pushBack cmp s v)[0]? = some b' ∧ Least cmp b' (pushBack cmp s v) := by
  have hb : (s.elements ++ [v])[0]? = some b := by
    rw [List.getElem?_append_left (List.getElem?_eq_some_iff.mp hfront).1]
    exact hfront
  have hperm := pushBack_perm cmp s v
  have htest : (s.state = .unordered ∨
      cmp ((s.elements ++ [v]).getLastD v) ((s.elements ++ [v]).headD v) = true) ↔
        cmp v b = true := by
    rw [List.headD_eq_head?_getD, List.head?_eq_getElem?, hb, Option.getD_some, hstate]
    simp
  by_cases hgt : cmp v b = true
  · have heq : pushBack cmp s v = s.elements ++ [v] := if_pos (htest.mpr hgt)
    refine ⟨b, by rw [heq, hb], Least.perm ?_ hperm⟩
    intro y hy
    rw [List.mem_append, List.mem_singleton] at hy
    rcases hy with hy | rfl
    · exact hleast y hy
    · exact hcmp.asymm hgt
  · have heq : pushBack cmp s v = swapAt (s.elements ++ [v]) 0 ((s.elements ++ [v]).length - 1) :=
      if_neg fun h => hgt (htest.mp h)
    have hv : (s.elements ++ [v])[(s.elements ++ [v]).length - 1]? = some v := by simp
    refine ⟨v, by rw [heq, swapAt_zero_front hv], Least.perm ?_ hperm⟩
    intro y hy
    rw [List.mem_append, List.mem_singleton] at hy
    rcases hy with hy | rfl
    · exact hcmp.not_trans (by simpa using hgt) (hleast y hy)
    · exact hcmp.irrefl y

theorem report_toList (dropped : Bool) (d : T) :
    (report dropped d).toList = if dropped then [d] else [] := by
  cases dropped <;> rfl

/-- Before the heap is built the elements are within the limit. -/
theorem Sound.length_le (hs : Sound cmp limit s pushed lost) (hstate : s.state ≠ .heapSorted) :
    s.elements.length ≤ s.limit := by
  have hlength := hs.keeps.length
  have hlimit := hs.limit_eq
  rw [hs.rep.kept_eq hstate] at hlength
  omega

/-- A push before the heap is built. -/
theorem pushInternal_unsorted (hcmp : WeaklyOrders cmp) (std : Algorithms cmp) (moved : T → T)
    (hs : Sound cmp limit s pushed lost) (hpos : 0 < limit) (hstate : s.state ≠ .heapSorted) (v : T)
    (dropped : Bool) :
    ∃ reported extra s', pushInternal std moved s v dropped = .ok (reported, s') ∧
      Sound cmp limit s' (pushed ++ [v]) (lost ++ extra) ∧
      reported.toList = if dropped then extra else [] := by
  have hlimit := hs.limit_eq
  have hkept := hs.rep.kept_eq hstate
  have hlost := hs.unlost hstate hpos
  have hperm := pushBack_perm cmp s v
  have hlen := hperm.length_eq
  rw [List.length_append, List.length_singleton] at hlen
  have hle := hs.length_le hstate
  unfold pushInternal
  rw [if_neg (by omega), if_pos hstate]
  dsimp only
  by_cases hfull : (pushBack cmp s v).length = s.limit + 1
  · -- the transition to a heap
    rw [if_pos hfull]
    obtain ⟨hmake, hheap⟩ := std.makeHeap_spec (pushBack cmp s v)
    have hne : std.makeHeap (pushBack cmp s v) ≠ [] := by
      intro hnil
      have hnone := hmake.length_eq
      rw [hnil, hfull] at hnone
      simp at hnone
    obtain ⟨d, h, spare, hpop, hpopped, hh, hleast⟩ :=
      popBottom_spec hcmp std moved dropped hheap hne
    rw [hpop, Access.ok_bind]
    refine ⟨_, [d], _, rfl, ?_, report_toList dropped d⟩
    refine sound_heapSorted hcmp hs ?_ hpos ?_ hh hleast
    · rw [hkept]
      omega
    · rw [hkept]
      exact hpopped.trans (hmake.trans hperm)
  · -- room is left
    rw [if_neg hfull]
    have hkept' : kept (⟨pushBack cmp s v, s.limit, s.state⟩ : TopN T) = pushBack cmp s v :=
      kept_of_length_le (by dsimp only; omega)
    refine ⟨none, [], _, rfl, ⟨hlimit, ?_, ?_, ?_⟩, by simp⟩
    · have hrep := hs.rep
      unfold RepOk at hrep ⊢
      dsimp only
      cases hcase : s.state with
      | unordered =>
        dsimp only
        omega
      | bottomKnown =>
        rw [hcase] at hrep
        obtain ⟨-, b, hfront, hleast⟩ := hrep
        exact ⟨by omega, pushBack_front hcmp hcase hfront hleast v⟩
      | heapSorted => exact absurd hcase hstate
    · have hkeeps := hs.keeps
      rw [hlost, hkept] at hkeeps
      rw [hkept', hlost, List.append_nil]
      exact hkeeps.grow (by omega) hperm
    · intro _ _
      rw [hlost, List.append_nil]

/-- A push onto the heap. -/
theorem pushInternal_heapSorted (hcmp : WeaklyOrders cmp) (std : Algorithms cmp) (moved : T → T)
    (hs : Sound cmp limit s pushed lost) (hstate : s.state = .heapSorted) (v : T) (dropped : Bool) :
    ∃ reported extra s', pushInternal std moved s v dropped = .ok (reported, s') ∧
      Sound cmp limit s' (pushed ++ [v]) (lost ++ extra) ∧
      reported.toList = if dropped then extra else [] := by
  obtain ⟨hpos, hfull, hheap, hdrop⟩ := hs.rep.heapSorted hstate
  have hfull' : s.kept.length = limit := hfull.trans hs.limit_eq
  obtain ⟨front, rest, hcons⟩ := List.exists_cons_of_ne_nil (l := s.kept) (by
    intro hnil
    rw [hnil, List.length_nil] at hfull
    omega)
  have hhead : s.elements.head? = some front := by
    rw [← List.take_append_drop s.size s.elements]
    change (s.kept ++ _).head? = some front
    rw [hcons]
    rfl
  have hbottom : Least cmp front s.kept := by
    rw [hcons] at hheap ⊢
    exact hheap.front_least hcmp
  unfold pushInternal
  rw [if_neg (by omega), if_neg (not_not.mpr hstate), hhead]
  dsimp only
  by_cases hgt : cmp v front = true
  · rw [if_pos hgt, hdrop]
    obtain ⟨hpush, hpushed⟩ := std.pushHeap_spec s.kept v hheap
    have hne : std.pushHeap (s.kept ++ [v]) ≠ [] := by
      intro hnil
      rw [hnil] at hpush
      have hnone := hpush.length_eq
      simp at hnone
    obtain ⟨d, h, spare, hpop, hpopped, hh, hleast⟩ :=
      popBottom_spec hcmp std moved dropped hpushed hne
    rw [hpop, Access.ok_bind, hstate]
    refine ⟨_, [d], _, rfl, ?_, report_toList dropped d⟩
    exact sound_heapSorted hcmp hs hfull' (hs.limit_eq ▸ hpos) (hpopped.trans hpush) hh hleast
  · rw [if_neg hgt]
    refine ⟨_, [v], s, rfl, ⟨hs.limit_eq, hs.rep, ?_, fun hne => absurd hstate hne⟩,
      report_toList dropped v⟩
    refine hs.keeps.replace hcmp hfull' (.refl _) ?_
    intro y hy
    exact hcmp.not_trans (by simpa using hgt) (hbottom y hy)

/-- **One push.** At most one element is lost, and it is reported if a pointer was given. -/
theorem pushInternal_sound (hcmp : WeaklyOrders cmp) (std : Algorithms cmp) (moved : T → T)
    (hs : Sound cmp limit s pushed lost) (v : T) (dropped : Bool) :
    ∃ reported extra s', pushInternal std moved s v dropped = .ok (reported, s') ∧
      Sound cmp limit s' (pushed ++ [v]) (lost ++ extra) ∧
      reported.toList = if dropped then extra else [] := by
  rcases Nat.eq_zero_or_pos limit with hzero | hpos
  · have hlength := hs.keeps.length
    have hlimit := hs.limit_eq
    have hfull : s.kept.length = limit := by omega
    refine ⟨_, [v], s, by rw [pushInternal, if_pos (by omega)],
      ⟨hlimit, hs.rep, ?_, fun _ hpos => absurd hpos (by omega)⟩, report_toList dropped v⟩
    refine hs.keeps.replace hcmp hfull (.refl _) ?_
    intro y hy
    rw [List.length_eq_zero_iff.mp (hfull.trans hzero)] at hy
    contradiction
  · by_cases hstate : s.state = .heapSorted
    · exact pushInternal_heapSorted hcmp std moved hs hstate v dropped
    · exact pushInternal_unsorted hcmp std moved hs hpos hstate v dropped

/-! ### The bottom -/

theorem size_ne_zero (hne : s.kept ≠ []) : s.size ≠ 0 := by
  intro hzero
  rw [kept, hzero, List.take_zero] at hne
  exact hne rfl

/-- The bottom is looked for and moved to the front. -/
theorem peekBottom_unordered (hcmp : WeaklyOrders cmp) (hs : Sound cmp limit s pushed lost)
    (hne : s.kept ≠ []) (hstate : s.state = .unordered) (hreach : InReach cmp s.elements) :
    ∃ b s', peekBottom cmp s = .ok (b, s') ∧ b ∈ s.kept ∧ Least cmp b s.kept ∧
      Sound cmp limit s' pushed lost := by
  have hunsorted : s.state ≠ .heapSorted := by simp [hstate]
  have hkept : s.kept = s.elements := hs.rep.kept_eq hunsorted
  have hle := hs.length_le hunsorted
  have hsize := size_ne_zero hne
  rw [hkept] at hne ⊢
  obtain ⟨x, l, hcons⟩ := List.exists_cons_of_ne_nil hne
  obtain ⟨c, m, hscan, hm, hleast⟩ := scan_least hcmp hreach l [x] 0 x hcons
    (by rw [hcons]; rfl)
    (by
      intro y hy
      rw [List.mem_singleton.mp hy]
      exact hcmp.irrefl x)
  have hdrop : s.elements.drop 1 = l := by rw [hcons]; rfl
  have hfound := moveToFront_front ((Int.toNat_natCast c).symm ▸ hm)
  have hperm := moveToFront_perm s.elements c
  have hscan' : scan cmp s.elements l 1 0 = .ok (c : ℤ) := hscan
  rw [peekBottom, if_neg hsize, if_pos hstate, hdrop, hscan', Access.ok_bind, elementAt_natCast hm,
    Access.ok_bind]
  dsimp only
  rw [elementAt_zero hfound, Access.ok_bind]
  refine ⟨m, _, rfl, List.mem_of_getElem? hm, hleast, hs.limit_eq, ?_, ?_, ?_⟩
  · exact ⟨hperm.length_eq.trans_le hle, m, hfound, hleast.perm hperm⟩
  · rw [kept_of_length_le (hperm.length_eq.trans_le hle)]
    have hkeeps := hs.keeps
    rw [hkept] at hkeeps
    exact hkeeps.perm_kept hperm
  · intro _ hpos
    exact hs.unlost hunsorted hpos

/-- **One `peek_bottom`**, with a least element in reach if it has to be looked for. -/
theorem peekBottom_sound (hcmp : WeaklyOrders cmp) (hs : Sound cmp limit s pushed lost)
    (hne : s.kept ≠ []) (hreach : s.state = .unordered → InReach cmp s.elements) :
    ∃ b s', peekBottom cmp s = .ok (b, s') ∧ b ∈ s.kept ∧ Least cmp b s.kept ∧
      Sound cmp limit s' pushed lost := by
  have hsize := size_ne_zero hne
  cases hstate : s.state with
  | unordered => exact peekBottom_unordered hcmp hs hne hstate (hreach hstate)
  | bottomKnown =>
    have hkept : s.kept = s.elements := hs.rep.kept_eq (by simp [hstate])
    have hrep := hs.rep
    unfold RepOk at hrep
    rw [hstate] at hrep
    obtain ⟨-, b, hfront, hleast⟩ := hrep
    rw [peekBottom, if_neg hsize, if_neg (by simp [hstate]), elementAt_zero hfront, Access.ok_bind,
      hkept]
    exact ⟨b, s, rfl, List.mem_of_getElem? hfront, hleast, hs⟩
  | heapSorted =>
    obtain ⟨hpos, hfull, hheap, hdrop⟩ := hs.rep.heapSorted hstate
    obtain ⟨front, rest, hcons⟩ := List.exists_cons_of_ne_nil hne
    have hfront : s.elements[0]? = some front := by
      rw [← List.take_append_drop s.size s.elements]
      change (s.kept ++ _)[0]? = some front
      rw [hcons]
      rfl
    rw [peekBottom, if_neg hsize, if_neg (by simp [hstate]), elementAt_zero hfront, Access.ok_bind]
    refine ⟨front, s, rfl, by simp [hcons], ?_, hs⟩
    rw [hcons] at hheap ⊢
    exact hheap.front_least hcmp

/-- What an `int` can point at: a least element found by the scan was in reach. -/
theorem inReach_of_peekBottom (hstate : s.state = .unordered) (hkept : s.kept = s.elements) {b : T}
    {s' : TopN T} (h : peekBottom cmp s = .ok (b, s')) (hleast : Least cmp b s.kept) :
    InReach cmp s.elements := by
  have hsize : s.size ≠ 0 := by
    intro hzero
    rw [peekBottom, if_pos hzero] at h
    contradiction
  rw [peekBottom, if_neg hsize, if_pos hstate] at h
  obtain ⟨c, hscan, h⟩ := Access.bind_eq_ok.mp h
  obtain ⟨m, hm, h⟩ := Access.bind_eq_ok.mp h
  obtain ⟨front, hfront, h⟩ := Access.bind_eq_ok.mp h
  simp only [Except.ok.injEq, Prod.mk.injEq] at h
  obtain ⟨-, hm⟩ := elementAt_eq_ok hm
  have hlt : c < 2 ^ 31 := scan_lt (by decide) hscan
  have hfound : front = m := by
    have hfront' := (elementAt_eq_ok hfront).2
    rw [Int.toNat_zero, moveToFront_front hm] at hfront'
    exact (Option.some.inj hfront').symm
  refine ⟨m, ?_, ?_⟩
  · have htake : (s.elements.take (2 ^ 31))[c.toNat]? = some m := by
      rw [List.getElem?_take, if_pos (by omega)]
      exact hm
    exact List.mem_of_getElem? htake
  · rw [← hfound, h.1, ← hkept]
    exact hleast

/-! ### The extractions -/

/-- The extractions give the elements kept, sorted or in any order. -/
structure Extracts (std : Algorithms cmp) (s : TopN T) : Prop where
  extract : (s.extract std).1.Perm s.kept ∧ Sorted cmp (s.extract std).1
  nondestructive :
    (s.extractNondestructive std).Perm s.kept ∧ Sorted cmp (s.extractNondestructive std)
  unsorted : s.extractUnsorted.1.Perm s.kept
  unsortedNondestructive : s.extractUnsortedNondestructive.Perm s.kept

theorem Sound.extracts (hs : Sound cmp limit s pushed lost) (std : Algorithms cmp) :
    Extracts std s := by
  by_cases hstate : s.state = .heapSorted
  · obtain ⟨-, -, hheap, hdrop⟩ := hs.rep.heapSorted hstate
    have hsort := std.sortHeap_spec s.kept hheap
    rw [← hdrop] at hsort
    constructor
    · simpa [TopN.extract, hstate, ← hdrop] using hsort
    · simpa [extractNondestructive, hstate, ← hdrop] using hsort
    · simp [extractUnsorted, hstate, hdrop]
    · simp [extractUnsortedNondestructive, hstate, hdrop]
  · have hkept := hs.rep.kept_eq hstate
    have hsort := std.sort_spec s.kept
    rw [hkept] at hsort
    constructor
    · simpa [TopN.extract, hstate, hkept] using hsort
    · simpa [extractNondestructive, hstate, hkept] using hsort
    · simp [extractUnsorted, hstate, hkept]
    · simp [extractUnsortedNondestructive, hstate, hkept]

/-! ### Runs -/

/-- What a client calls. -/
inductive Op (T : Type)
  /-- `push(v, dropped)`, with a pointer or with a null one. -/
  | push (v : T) (dropped : Bool)
  | peekBottom

/-- What it sees. -/
inductive Seen (T : Type)
  | pushed (reported : Option T)
  | bottom (b : T)

/-- One call. -/
def step (std : Algorithms cmp) (moved : T → T) (s : TopN T) : Op T → Access (Seen T × TopN T)
  | .push v dropped => (pushInternal std moved s v dropped).map fun r => (.pushed r.1, r.2)
  | .peekBottom => (peekBottom cmp s).map fun r => (.bottom r.1, r.2)

/-- The elements pushed. -/
def pushes (ops : List (Op T)) : List T :=
  ops.filterMap fun
    | .push v _ => some v
    | .peekBottom => none

/-- The elements reported through `dropped`. -/
def reports (os : List (Seen T)) : List T :=
  os.filterMap fun
    | .pushed reported => reported
    | .bottom _ => none

/-- The call does not drop an element silently. -/
def Op.Asks : Op T → Prop
  | .push _ dropped => dropped = true
  | .peekBottom => True

/-- Where `peek_bottom` has to look for the bottom, one is in reach of an `int`. -/
def PeekInReach (cmp : T → T → Bool) (s : TopN T) : Op T → Prop
  | .push _ _ => True
  | .peekBottom => s.state = .unordered → InReach cmp s.elements

/-- After the calls `done` the object is sound, the elements lost are those reported (all of them, if
every push asked), the extractions are right, and if `peek_bottom` is called next it returns a least
element. -/
def CorrectAfter (std : Algorithms cmp) (moved : T → T) (limit : ℕ) (done rest : List (Op T)) :
    Prop :=
  ∃ os s lost, run (step std moved) (new limit) done = .ok (os, s) ∧
    Sound cmp limit s (pushes done) lost ∧ (reports os).Sublist lost ∧
    ((∀ op ∈ done, op.Asks) → reports os = lost) ∧ Extracts std s ∧
    ∀ rest', rest = .peekBottom :: rest' →
      ∃ b s', peekBottom cmp s = .ok (b, s') ∧ b ∈ s.kept ∧ Least cmp b s.kept

theorem kept_ne_nil (hs : Sound cmp limit s pushed lost) (h : 0 < min limit pushed.length) :
    s.kept ≠ [] := by
  intro hnil
  have hlength := hs.keeps.length
  rw [hnil, List.length_nil] at hlength
  omega

/-- **Runs**, as long as every bottom that has to be looked for is in reach. -/
theorem run_sound (hcmp : WeaklyOrders cmp) (std : Algorithms cmp) (moved : T → T) (limit : ℕ)
    (ops : List (Op T))
    (hpeek : ∀ done rest, ops = done ++ .peekBottom :: rest → 0 < min limit (pushes done).length)
    (hreach : ∀ p ∈ steps (step std moved) (new limit) ops, PeekInReach cmp p.1 p.2) :
    ∃ os s lost, run (step std moved) (new limit) ops = .ok (os, s) ∧
      Sound cmp limit s (pushes ops) lost ∧ (reports os).Sublist lost ∧
      ((∀ op ∈ ops, op.Asks) → reports os = lost) := by
  induction ops using List.reverseRecOn with
  | nil => exact ⟨[], new limit, [], rfl, sound_new cmp limit, .refl [], fun _ => rfl⟩
  | append_singleton done op ih =>
    obtain ⟨os, s, lost, hrun, hs, hsub, hall⟩ := ih
      (fun done' rest h => hpeek done' (rest ++ [op]) (by simp [h]))
      (fun p hp => hreach p ((prefix_visits_append done [op]).subset hp))
    have hguard : PeekInReach cmp s op := by
      refine hreach (s, op) ?_
      rw [steps, visits_append hrun]
      exact List.mem_append_right _ (by simp [visits])
    cases op with
    | push v dropped =>
      obtain ⟨reported, extra, s', hpush, hs', hreported⟩ :=
        pushInternal_sound hcmp std moved hs v dropped
      have hstep : step std moved s (.push v dropped) = .ok (.pushed reported, s') := by
        rw [step, hpush]
        rfl
      have hreports : reports (os ++ [.pushed reported]) =
          reports os ++ if dropped then extra else [] := by
        rw [← hreported, reports, reports, List.filterMap_append]
        cases reported <;> rfl
      refine ⟨_, s', lost ++ extra, run_concat_ok hrun hstep, ?_, ?_, ?_⟩
      · rwa [show pushes (done ++ [.push v dropped]) = pushes done ++ [v] from
          List.filterMap_append]
      · rw [hreports]
        refine hsub.append ?_
        split
        · exact .refl extra
        · exact List.nil_sublist extra
      · intro hasks
        have hasked : dropped = true := hasks (.push v dropped) (by simp)
        rw [hreports, hall fun op hop => hasks op (List.mem_append_left _ hop), if_pos hasked]
    | peekBottom =>
      obtain ⟨b, s', hpeeked, -, -, hs'⟩ :=
        peekBottom_sound hcmp hs (kept_ne_nil hs (hpeek done [] rfl)) hguard
      have hstep : step std moved s .peekBottom = .ok (.bottom b, s') := by
        rw [step, hpeeked]
        rfl
      have hpushes : pushes (done ++ [.peekBottom]) = pushes done := by
        rw [pushes, List.filterMap_append]
        exact List.append_nil _
      have hreports : reports (os ++ [.bottom b]) = reports os := by
        rw [reports, List.filterMap_append]
        exact List.append_nil _
      refine ⟨_, s', lost, run_concat_ok hrun hstep, ?_, ?_, ?_⟩
      · rwa [hpushes]
      · rwa [hreports]
      · intro hasks
        rw [hreports, hall fun op hop => hasks op (List.mem_append_left _ hop)]

/-- **Every run is right exactly when every bottom that has to be looked for is in reach.** -/
theorem topN_correct_iff (hcmp : WeaklyOrders cmp) (std : Algorithms cmp) (moved : T → T)
    (limit : ℕ) (ops : List (Op T))
    (hpeek : ∀ done rest, ops = done ++ .peekBottom :: rest → 0 < min limit (pushes done).length) :
    (∀ done rest, ops = done ++ rest → CorrectAfter std moved limit done rest) ↔
      ∀ p ∈ steps (step std moved) (new limit) ops, PeekInReach cmp p.1 p.2 := by
  constructor
  · rintro h ⟨s, op⟩ hp
    obtain ⟨done, rest, os, hops, hrun⟩ := exists_run_of_mem_steps hp
    dsimp only at hops hrun ⊢
    cases op with
    | push v dropped => trivial
    | peekBottom =>
      intro hstate
      obtain ⟨os', s', lost, hrun', hs, -, -, -, hnext⟩ := h done _ hops
      rw [hrun, Except.ok.injEq, Prod.mk.injEq] at hrun'
      obtain ⟨-, rfl⟩ := hrun'
      obtain ⟨b, s'', hpeeked, -, hleast⟩ := hnext rest rfl
      exact inReach_of_peekBottom hstate (hs.rep.kept_eq (by simp [hstate])) hpeeked hleast
  · intro hreach done rest hops
    subst hops
    obtain ⟨os, s, lost, hrun, hs, hsub, hall⟩ := run_sound hcmp std moved limit done
      (fun done' rest' h => hpeek done' (rest' ++ rest) (by simp [h]))
      (fun p hp => hreach p ((prefix_visits_append done rest).subset hp))
    refine ⟨os, s, lost, hrun, hs, hsub, hall, hs.extracts std, ?_⟩
    intro rest' hrest
    subst hrest
    have hguard : PeekInReach cmp s (.peekBottom : Op T) := by
      refine hreach (s, .peekBottom) ?_
      rw [steps, visits_append hrun]
      exact List.mem_append_right _ (by simp [visits])
    obtain ⟨b, s', hpeeked, hmem, hleast, -⟩ :=
      peekBottom_sound hcmp hs (kept_ne_nil hs (hpeek done rest' rfl)) hguard
    exact ⟨b, s', hpeeked, hmem, hleast⟩

/-- `std::greater<int>`. -/
abbrev greater (a b : ℕ) : Bool := decide (b < a)

/-- Two elements kept of three, the bottom looked at in between. -/
theorem topN_correct_iff_two :
    (∀ done rest, [.push 5 true, .peekBottom, .push 4 true, .push 3 true] = done ++ rest →
      CorrectAfter (Algorithms.ofMergeSort (WeaklyOrders.of_linearOrder (α := ℕ))) id 2 done rest) ↔
      ∀ p ∈ steps (step (Algorithms.ofMergeSort (WeaklyOrders.of_linearOrder (α := ℕ))) id) (new 2)
        [.push 5 true, .peekBottom, .push 4 true, .push 3 true], PeekInReach greater p.1 p.2 := by
  refine topN_correct_iff .of_linearOrder (.ofMergeSort .of_linearOrder) id 2 _ ?_
  intro done rest h
  rcases done with _ | ⟨a, _ | ⟨b, _ | ⟨c, _ | ⟨d, done⟩⟩⟩⟩
  · simp at h
  · simp only [List.cons_append, List.nil_append, List.cons.injEq] at h
    rw [← h.1]
    decide
  · simp at h
  · simp at h
  · simp at h

/-- Before the heap is built, the elements stand as they were pushed. -/
theorem run_pushes (std : Algorithms cmp) (moved : T → T) (vs : List T) (s : TopN T)
    (hstate : s.state = .unordered) (hroom : s.elements.length + vs.length ≤ s.limit) :
    ∃ os, run (step std moved) s (vs.map fun v => .push v false) =
      .ok (os, ⟨s.elements ++ vs, s.limit, .unordered⟩) := by
  induction vs generalizing s with
  | nil =>
    refine ⟨[], ?_⟩
    rw [List.append_nil, ← hstate]
    rfl
  | cons v vs ih =>
    rw [List.length_cons] at hroom
    have hpush : step std moved s (.push v false) =
        .ok (.pushed none, ⟨s.elements ++ [v], s.limit, s.state⟩) := by
      have hback : pushBack cmp s v = s.elements ++ [v] := if_pos (.inl hstate)
      have hlen : (s.elements ++ [v]).length = s.elements.length + 1 := by simp
      rw [step, pushInternal, if_neg (by omega), if_pos (by simp [hstate]), hback]
      dsimp only
      rw [if_neg (by omega)]
      rfl
    obtain ⟨os, hrest⟩ := ih ⟨s.elements ++ [v], s.limit, s.state⟩ hstate
      (by simp only [List.length_append, List.length_singleton]; omega)
    refine ⟨.pushed none :: os, ?_⟩
    rw [List.map_cons, run_cons_ok hpush, hrest]
    simp only [Except.map, List.append_assoc, List.singleton_append]

/-- `2^31` ones and a zero: the bottom is the last element, and no `int` can point there. -/
theorem not_correctAfter_zero (n : ℕ) (hn : 2 ^ 31 ≤ n) (std : Algorithms greater) (moved : ℕ → ℕ) :
    ¬ CorrectAfter std moved (n + 1)
      ((List.replicate n 1 ++ [0]).map fun v => .push v false) [.peekBottom] := by
  rintro ⟨os, s, lost, hrun, hs, -, -, -, hnext⟩
  obtain ⟨os', hrun'⟩ := run_pushes std moved (List.replicate n 1 ++ [0]) (new (n + 1)) rfl
    (by simp [new])
  rw [hrun, Except.ok.injEq, Prod.mk.injEq] at hrun'
  have hstate : s.state = .unordered := by rw [hrun'.2]
  have helements : s.elements = List.replicate n 1 ++ [0] := by rw [hrun'.2]; rfl
  obtain ⟨b, s', hpeeked, -, hleast⟩ := hnext [] rfl
  obtain ⟨x, hx, hxleast⟩ :=
    inReach_of_peekBottom hstate (hs.rep.kept_eq (by simp [hstate])) hpeeked hleast
  rw [helements, List.take_append_of_le_length (by rw [List.length_replicate]; exact hn)] at hx
  have hone : x = 1 := List.eq_of_mem_replicate (List.mem_of_mem_take hx)
  have hzero := hxleast 0 (by rw [helements]; simp)
  rw [hone] at hzero
  contradiction

/-- One `peek_bottom` after the pushes: the elements pushed before it. -/
theorem pushes_before_peek (vs : List T) (done rest : List (Op T))
    (h : vs.map (fun v => Op.push v false) ++ [.peekBottom] = done ++ .peekBottom :: rest) :
    pushes done = vs := by
  induction vs generalizing done with
  | nil =>
    cases done with
    | nil => rfl
    | cons op done => simp at h
  | cons v vs ih =>
    cases done with
    | nil => simp at h
    | cons op done =>
      simp only [List.map_cons, List.cons_append, List.cons.injEq] at h
      rw [← ih done h.2, ← h.1]
      rfl

/-- The calls that fail: the bottom of `2^31` ones and a zero. -/
theorem topN_not_correct :
    (∀ done rest, (List.replicate (2 ^ 31) 1 ++ [0]).map (fun v => Op.push v false) ++
        [.peekBottom] = done ++ .peekBottom :: rest → 0 < min (2 ^ 31 + 1) (pushes done).length) ∧
      ¬ ∀ done rest, (List.replicate (2 ^ 31) 1 ++ [0]).map (fun v => Op.push v false) ++
        [.peekBottom] = done ++ rest →
          CorrectAfter (Algorithms.ofMergeSort (WeaklyOrders.of_linearOrder (α := ℕ))) id
            (2 ^ 31 + 1) done rest := by
  refine ⟨?_, ?_⟩
  · intro done rest h
    rw [pushes_before_peek _ done rest h, List.length_append, List.length_singleton]
    omega
  · intro h
    exact not_correctAfter_zero (2 ^ 31) le_rfl _ id (h _ _ rfl)

end TopN

end LearnNetlib.Gtl
