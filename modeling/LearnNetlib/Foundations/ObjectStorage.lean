import Mathlib.Data.List.Basic
import Mathlib.Data.List.Infix
import Mathlib.Tactic.Common

/-!
# Storage for objects

An array of cells, each raw or holding an object.  Reading, assigning to and destroying an object need
one to be there; constructing one needs the cell only.  `none` as a result is an access the language
does not define.

* `overwrite` — a piece of a list replaced, in place or past its end, with the rules for one element
  more at either end;
* `read`, `construct`, `assign`, `destroy` — single objects;
* `copy`, `copyBackward`, `copyFrom`, `uninitializedCopy`, `moveFrom`, `swapRanges` — the loops of the
  standard algorithms;
* `Holds` — the array begins with the objects of a list; **each loop's effect on that list** is an
  `overwrite`.
-/

namespace LearnNetlib.ObjectStorage

/-! ### Overwriting a piece of a list -/

section Overwrite

variable {α β : Type*}

/-- `ys` in place of what stands from `k` on. -/
def overwrite (xs : List α) (k : ℕ) (ys : List α) : List α :=
  xs.take k ++ ys ++ xs.drop (k + ys.length)

@[simp] theorem overwrite_nil (xs : List α) (k : ℕ) : overwrite xs k [] = xs := by
  simp [overwrite]

theorem length_overwrite {xs ys : List α} {k : ℕ} (hk : k ≤ xs.length) :
    (overwrite xs k ys).length = max xs.length (k + ys.length) := by
  simp only [overwrite, List.length_append, List.length_take, List.length_drop]
  omega

theorem overwrite_length_self (xs ys : List α) : overwrite xs xs.length ys = xs ++ ys := by
  simp [overwrite]

theorem set_eq_overwrite {xs : List α} {k : ℕ} (hk : k < xs.length) (x : α) :
    xs.set k x = overwrite xs k [x] := by
  rw [List.set_eq_take_append_cons_drop, if_pos hk]
  simp [overwrite]

theorem getElem?_overwrite {xs ys : List α} {k : ℕ} (hk : k ≤ xs.length) (j : ℕ) :
    (overwrite xs k ys)[j]? =
      if j < k then xs[j]? else if j < k + ys.length then ys[j - k]? else xs[j]? := by
  have htake : (xs.take k).length = k := by
    rw [List.length_take]
    omega
  rw [overwrite, List.append_assoc]
  by_cases hj : j < k
  · rw [List.getElem?_append_left (by omega), List.getElem?_take, if_pos hj, if_pos hj]
  · rw [List.getElem?_append_right (by omega), htake, if_neg hj]
    by_cases hj' : j < k + ys.length
    · rw [List.getElem?_append_left (by omega), if_pos hj']
    · rw [List.getElem?_append_right (by omega), if_neg hj', List.getElem?_drop]
      congr 1
      omega

/-- One element first, then the ones behind it. -/
theorem overwrite_set_cons {xs ys : List α} {k : ℕ} (hk : k < xs.length) (x : α) :
    overwrite (xs.set k x) (k + 1) ys = overwrite xs k (x :: ys) := by
  apply List.ext_getElem?
  intro j
  rw [getElem?_overwrite (by rw [List.length_set]; omega), getElem?_overwrite (by omega),
    List.length_cons]
  rcases Nat.lt_trichotomy j k with hlt | rfl | hgt
  · rw [if_pos (by omega), if_pos hlt, List.getElem?_set_ne (by omega)]
  · rw [if_pos (by omega), if_neg (by omega), if_pos (by omega), List.getElem?_set_self hk,
      Nat.sub_self, List.getElem?_cons_zero]
  · by_cases hj : j < k + 1 + ys.length
    · rw [if_neg (by omega), if_pos hj, if_neg (by omega), if_pos (by omega),
        show j - k = (j - (k + 1)) + 1 from by omega, List.getElem?_cons_succ]
    · rw [if_neg (by omega), if_neg hj, if_neg (by omega), if_neg (by omega),
        List.getElem?_set_ne (by omega)]

/-- One element last, then the ones before it. -/
theorem overwrite_set_concat {xs : List α} (ys : List α) {k : ℕ} (hk : k + ys.length < xs.length)
    (x : α) :
    overwrite (xs.set (k + ys.length) x) k ys = overwrite xs k (ys ++ [x]) := by
  apply List.ext_getElem?
  intro j
  rw [getElem?_overwrite (by rw [List.length_set]; omega), getElem?_overwrite (by omega),
    List.length_append, List.length_singleton]
  rcases Nat.lt_trichotomy j (k + ys.length) with hlt | rfl | hgt
  · by_cases hj : j < k
    · rw [if_pos hj, if_pos hj, List.getElem?_set_ne (by omega)]
    · rw [if_neg hj, if_pos hlt, if_neg hj, if_pos (by omega),
        List.getElem?_append_left (by omega)]
  · rw [if_neg (by omega), if_neg (by omega), List.getElem?_set_self hk, if_neg (by omega),
      if_pos (by omega), List.getElem?_append_right (by omega)]
    simp
  · rw [if_neg (by omega), if_neg (by omega), List.getElem?_set_ne (by omega), if_neg (by omega),
      if_neg (by omega)]

/-- What stands behind the new piece, set afterwards. -/
theorem set_overwrite {xs ys : List α} {k : ℕ} (hk : k + ys.length < xs.length) (x : α) :
    (overwrite xs k ys).set (k + ys.length) x = overwrite xs k (ys ++ [x]) := by
  have hlen : (xs.take k ++ ys).length = k + ys.length := by
    rw [List.length_append, List.length_take]
    omega
  rw [overwrite, List.set_append_right _ _ (by omega), hlen, Nat.sub_self,
    List.drop_eq_getElem_cons hk, List.set_cons_zero, overwrite, List.length_append,
    List.length_singleton]
  simp only [List.append_assoc, List.singleton_append, Nat.add_assoc]

/-- The beginning of the new piece. -/
theorem take_drop_overwrite {xs : List α} {k : ℕ} (hk : k ≤ xs.length) (ys zs : List α) :
    ((overwrite xs k (ys ++ zs)).drop k).take ys.length = ys := by
  have hlen : (xs.take k).length = k := by
    rw [List.length_take]
    omega
  rw [overwrite, List.append_assoc, List.append_assoc, List.drop_append_of_le_length (by omega),
    List.drop_of_length_le (by omega), List.nil_append, List.take_left]

/-- The beginning of the new piece, replaced once more. -/
theorem overwrite_overwrite {xs ys ys' : List α} {k : ℕ} (hk : k ≤ xs.length)
    (hys : ys'.length = ys.length) (zs : List α) :
    overwrite (overwrite xs k (ys ++ zs)) k ys' = overwrite xs k (ys' ++ zs) := by
  have hlen : (xs.take k).length = k := by
    rw [List.length_take]
    omega
  have htake : (overwrite xs k (ys ++ zs)).take k = xs.take k := by
    rw [overwrite, List.append_assoc, List.take_append_of_le_length (by omega), List.take_of_length_le]
    omega
  have hdrop : (overwrite xs k (ys ++ zs)).drop (k + ys'.length)
      = zs ++ xs.drop (k + (ys ++ zs).length) := by
    rw [overwrite, ← List.append_assoc, List.append_assoc _ zs, List.drop_append_of_le_length,
      List.drop_of_length_le, List.nil_append]
    all_goals rw [List.length_append]; omega
  rw [overwrite, htake, hdrop, overwrite, List.length_append, List.length_append, hys]
  simp only [List.append_assoc]

end Overwrite

/-! ### Single objects -/

variable {T : Type*}

/-- Raw memory, or the object that lives there. -/
abbrev Cells (T : Type*) := List (Option T)

/-- The object at `k`. -/
def read (cs : Cells T) (k : ℕ) : Option T := cs[k]?.join

/-- `new (p + k) T(x)`. -/
def construct (cs : Cells T) (k : ℕ) (x : T) : Option (Cells T) :=
  if k < cs.length then some (cs.set k (some x)) else none

/-- `p[k] = x`. -/
def assign (cs : Cells T) (k : ℕ) (x : T) : Option (Cells T) := do
  let _ ← read cs k
  some (cs.set k (some x))

/-- The `n` objects from `k` on are destroyed. -/
def destroy (cs : Cells T) (k : ℕ) : ℕ → Option (Cells T)
  | 0 => some cs
  | n + 1 => do
    let _ ← read cs k
    destroy (cs.set k none) (k + 1) n

/-- The array begins with the objects `xs`. -/
def Holds (cs : Cells T) (xs : List T) : Prop := xs.map some <+: cs

variable {cs ds : Cells T} {xs ys : List T} {k n : ℕ} {x : T}

theorem Holds.length_le (h : Holds cs xs) : xs.length ≤ cs.length := by
  have hle := List.IsPrefix.length_le h
  rwa [List.length_map] at hle

theorem holds_iff :
    Holds cs xs ↔ ∀ (j : ℕ) (x : T), xs[j]? = some x → cs[j]? = some (some x) := by
  constructor
  · rintro ⟨rest, rfl⟩ j x hx
    have hj : j < (xs.map some).length := by
      rw [List.length_map]
      exact (List.getElem?_eq_some_iff.mp hx).1
    rw [List.getElem?_append_left hj, List.getElem?_map, hx, Option.map_some]
  · intro h
    rw [Holds, List.prefix_iff_eq_take]
    apply List.ext_getElem?
    intro j
    rw [List.getElem?_map, List.getElem?_take, List.length_map]
    by_cases hj : j < xs.length
    · rw [if_pos hj, List.getElem?_eq_getElem hj, h j _ (List.getElem?_eq_getElem hj),
        Option.map_some]
    · rw [if_neg hj, List.getElem?_eq_none (by omega), Option.map_none]

theorem Holds.nil (cs : Cells T) : Holds cs [] := List.nil_prefix

theorem Holds.mono (h : Holds cs ys) (hxs : xs <+: ys) : Holds cs xs :=
  (hxs.map some).trans h

theorem read_eq_some : read cs k = some x ↔ cs[k]? = some (some x) := by
  rw [read, Option.join_eq_some_iff]

theorem Holds.read (h : Holds cs xs) (hx : xs[k]? = some x) : read cs k = some x :=
  read_eq_some.mpr (holds_iff.mp h k x hx)

theorem Holds.read_of_lt (h : Holds cs xs) (hk : k < xs.length) :
    ObjectStorage.read cs k = some xs[k] :=
  h.read (List.getElem?_eq_getElem hk)

/-- The arrays that begin with `xs` begin with `xs` overwritten once they are. -/
theorem Holds.overwritten (h : Holds cs xs) (hk : k ≤ xs.length) (ys : List T) :
    Holds (overwrite cs k (ys.map some)) (overwrite xs k ys) := by
  have hle := h.length_le
  rw [holds_iff] at h ⊢
  intro j x hx
  rw [getElem?_overwrite hk] at hx
  rw [getElem?_overwrite (by omega), List.length_map]
  by_cases hj : j < k
  · rw [if_pos hj] at hx ⊢
    exact h j x hx
  · rw [if_neg hj] at hx ⊢
    by_cases hj' : j < k + ys.length
    · rw [if_pos hj'] at hx ⊢
      rw [List.getElem?_map, hx, Option.map_some]
    · rw [if_neg hj'] at hx ⊢
      exact h j x hx

theorem construct_eq (hk : k < cs.length) (x : T) :
    construct cs k x = some (overwrite cs k [some x]) := by
  rw [construct, if_pos hk, set_eq_overwrite hk]

theorem Holds.assign (h : Holds cs xs) (hk : k < xs.length) (x : T) :
    assign cs k x = some (cs.set k (some x)) := by
  rw [ObjectStorage.assign, h.read_of_lt hk]
  rfl

theorem Holds.set (h : Holds cs xs) (hk : k < xs.length) (x : T) :
    Holds (cs.set k (some x)) (xs.set k x) := by
  have hle := h.length_le
  rw [set_eq_overwrite hk, set_eq_overwrite (by omega)]
  exact h.overwritten (by omega) [x]

/-- Destroying touches the cells named only. -/
theorem exists_destroy_eq (hlive : ∀ j, k ≤ j → j < k + n → ∃ x : T, read cs j = some x) :
    ∃ cs', destroy cs k n = some cs' ∧ cs'.length = cs.length ∧
      ∀ j : ℕ, j < k → cs'[j]? = cs[j]? := by
  induction n generalizing k cs with
  | zero => exact ⟨cs, rfl, rfl, fun _ _ => rfl⟩
  | succ n ih =>
    obtain ⟨x, hx⟩ := hlive k le_rfl (by omega)
    have hlive' : ∀ j, k + 1 ≤ j → j < k + 1 + n → ∃ x : T, read (cs.set k none) j = some x := by
      intro j hkj hj
      obtain ⟨y, hy⟩ := hlive j (by omega) (by omega)
      refine ⟨y, ?_⟩
      rw [read_eq_some] at hy ⊢
      rwa [List.getElem?_set_ne (by omega)]
    obtain ⟨cs', hd, hlen, hsame⟩ := ih hlive'
    refine ⟨cs', ?_, by rw [hlen, List.length_set], ?_⟩
    · rw [destroy, hx]
      exact hd
    · intro j hj
      rw [hsame j (by omega), List.getElem?_set_ne (by omega)]

theorem getElem?_destroy_of_lt {cs' : Cells T} (h : destroy cs k n = some cs') {j : ℕ} (hj : j < k) :
    cs'[j]? = cs[j]? := by
  induction n generalizing k cs with
  | zero => rw [← Option.some.inj h]
  | succ n ih =>
    obtain ⟨x, -, hrest⟩ := Option.bind_eq_some_iff.mp h
    rw [ih hrest (by omega), List.getElem?_set_ne (by omega)]

/-- Destroyed objects cannot be read. -/
theorem read_destroy {cs' : Cells T} (h : destroy cs k n = some cs') {j : ℕ} (hkj : k ≤ j)
    (hj : j < k + n) : read cs' j = none := by
  induction n generalizing k cs with
  | zero => omega
  | succ n ih =>
    obtain ⟨x, hx, hrest⟩ := Option.bind_eq_some_iff.mp h
    rcases Nat.eq_or_lt_of_le hkj with rfl | hlt
    · have hk := (List.getElem?_eq_some_iff.mp (read_eq_some.mp hx)).1
      rw [read, getElem?_destroy_of_lt hrest (by omega), List.getElem?_set_self hk]
      rfl
    · exact ih hrest hlt (by omega)

/-- What lies before the objects destroyed stays. -/
theorem Holds.destroy (h : Holds cs xs) (hn : k + n ≤ xs.length) :
    ∃ cs', destroy cs k n = some cs' ∧ cs'.length = cs.length ∧ Holds cs' (xs.take k) := by
  have hlive : ∀ j, k ≤ j → j < k + n → ∃ x : T, ObjectStorage.read cs j = some x := by
    intro j hkj hj
    exact ⟨_, h.read (List.getElem?_eq_getElem (show j < xs.length by omega))⟩
  obtain ⟨cs', hd, hlen, hsame⟩ := exists_destroy_eq hlive
  refine ⟨cs', hd, hlen, holds_iff.mpr ?_⟩
  intro j x hx
  rw [List.getElem?_take] at hx
  split at hx
  · rw [hsame j (by omega)]
    exact holds_iff.mp h j x hx
  · contradiction

/-! ### Loops -/

/-- `std::copy` of `n` objects from `first` on to `dst`, within one array. -/
def copy (cs : Cells T) (first dst : ℕ) : ℕ → Option (Cells T)
  | 0 => some cs
  | n + 1 => do
    let x ← read cs first
    let cs ← assign cs dst x
    copy cs (first + 1) (dst + 1) n

/-- `std::copy_backward` of `n` objects from `first` on to `dst`, within one array. -/
def copyBackward (cs : Cells T) (first dst : ℕ) : ℕ → Option (Cells T)
  | 0 => some cs
  | n + 1 => do
    let x ← read cs (first + n)
    let cs ← assign cs (dst + n) x
    copyBackward cs first dst n

/-- `std::copy` of `n` objects from another array. -/
def copyFrom (as cs : Cells T) (first dst : ℕ) : ℕ → Option (Cells T)
  | 0 => some cs
  | n + 1 => do
    let x ← read as first
    let cs ← assign cs dst x
    copyFrom as cs (first + 1) (dst + 1) n

/-- `std::uninitialized_copy` of `n` objects from another array. -/
def uninitializedCopy (as cs : Cells T) (first dst : ℕ) : ℕ → Option (Cells T)
  | 0 => some cs
  | n + 1 => do
    let x ← read as first
    let cs ← construct cs dst x
    uninitializedCopy as cs (first + 1) (dst + 1) n

/-- `n` objects from `i` on are moved to the same places of another array; `moved` is what a move
leaves behind. -/
def moveFrom (moved : T → T) (as cs : Cells T) (i : ℕ) : ℕ → Option (Cells T × Cells T)
  | 0 => some (as, cs)
  | n + 1 => do
    let x ← read as i
    let cs ← construct cs i x
    let as ← assign as i (moved x)
    moveFrom moved as cs (i + 1) n

/-- `std::swap_ranges`, for `n` objects from `i` on. -/
def swapRanges (as cs : Cells T) (i : ℕ) : ℕ → Option (Cells T × Cells T)
  | 0 => some (as, cs)
  | n + 1 => do
    let x ← read as i
    let y ← read cs i
    let as ← assign as i y
    let cs ← assign cs i x
    swapRanges as cs (i + 1) n

universe u

@[simp] theorem some_bind {α β : Type u} (a : α) (f : α → Option β) : (some a >>= f) = f a := rfl

/-- The first of the elements a loop goes through, and the others. -/
theorem take_drop_succ {k : ℕ} (hk : k < xs.length) (n : ℕ) :
    (xs.drop k).take (n + 1) = xs[k] :: (xs.drop (k + 1)).take n := by
  rw [List.drop_eq_getElem_cons hk, List.take_succ_cons]

theorem Holds.copy (h : Holds cs xs) {first dst : ℕ} (hto : dst ≤ first)
    (hn : first + n ≤ xs.length) :
    copy cs first dst n = some (overwrite cs dst (((xs.drop first).take n).map some)) := by
  induction n generalizing cs xs first dst with
  | zero => simp [ObjectStorage.copy]
  | succ n ih =>
    have hfirst : first < xs.length := by omega
    have hle := h.length_le
    have hnext := ih (h.set (show dst < xs.length by omega) xs[first])
      (show dst + 1 ≤ first + 1 by omega) (by rw [List.length_set]; omega)
    rw [ObjectStorage.copy, h.read_of_lt hfirst, some_bind, h.assign (by omega), some_bind, hnext,
      List.drop_set_of_lt (by omega), overwrite_set_cons (by omega), take_drop_succ hfirst,
      List.map_cons]

theorem Holds.copyBackward (h : Holds cs xs) {first dst : ℕ} (hto : first ≤ dst)
    (hn : dst + n ≤ xs.length) :
    copyBackward cs first dst n = some (overwrite cs dst (((xs.drop first).take n).map some)) := by
  induction n generalizing cs xs with
  | zero => simp [ObjectStorage.copyBackward]
  | succ n ih =>
    have hlast : first + n < xs.length := by omega
    have hle := h.length_le
    have hnext := ih (h.set (show dst + n < xs.length by omega) xs[first + n])
      (by rw [List.length_set]; omega)
    have hsame : ((xs.set (dst + n) xs[first + n]).drop first).take n = (xs.drop first).take n := by
      rw [List.drop_set, if_neg (by omega), List.take_set_of_le (by omega)]
    have hlen : (((xs.drop first).take n).map some).length = n := by
      rw [List.length_map, List.length_take, List.length_drop]
      omega
    have hconcat : (xs.drop first).take (n + 1) = (xs.drop first).take n ++ [xs[first + n]] := by
      rw [List.take_add_one, List.getElem?_drop, List.getElem?_eq_getElem hlast]
      rfl
    have hput : overwrite (cs.set (dst + n) (some xs[first + n])) dst
        (((xs.drop first).take n).map some) =
          overwrite cs dst (((xs.drop first).take n).map some ++ [some xs[first + n]]) := by
      have hput := overwrite_set_concat (((xs.drop first).take n).map some)
        (show dst + _ < cs.length by omega) (some xs[first + n])
      rwa [hlen] at hput
    rw [ObjectStorage.copyBackward, h.read_of_lt hlast, some_bind, h.assign (by omega), some_bind,
      hnext, hsame, hput, hconcat, List.map_append, List.map_singleton]

variable {as : Cells T}

theorem Holds.copyFrom (h : Holds as xs) (hc : Holds cs ys) {first dst : ℕ}
    (hfirst : first + n ≤ xs.length) (hto : dst + n ≤ ys.length) :
    copyFrom as cs first dst n = some (overwrite cs dst (((xs.drop first).take n).map some)) := by
  induction n generalizing cs ys first dst with
  | zero => simp [ObjectStorage.copyFrom]
  | succ n ih =>
    have hlt : first < xs.length := by omega
    have hle := hc.length_le
    have hnext := ih (hc.set (show dst < ys.length by omega) xs[first])
      (show first + 1 + n ≤ xs.length by omega)
      (show dst + 1 + n ≤ _ by rw [List.length_set]; omega)
    rw [ObjectStorage.copyFrom, h.read_of_lt hlt, some_bind, hc.assign (by omega), some_bind, hnext,
      overwrite_set_cons (by omega), take_drop_succ hlt, List.map_cons]

theorem Holds.uninitializedCopy (h : Holds as xs) {first dst : ℕ} (hfirst : first + n ≤ xs.length)
    (hto : dst + n ≤ cs.length) :
    uninitializedCopy as cs first dst n =
      some (overwrite cs dst (((xs.drop first).take n).map some)) := by
  induction n generalizing cs first dst with
  | zero => simp [ObjectStorage.uninitializedCopy]
  | succ n ih =>
    have hlt : first < xs.length := by omega
    have hput : construct cs dst xs[first] = some (cs.set dst (some xs[first])) :=
      if_pos (show dst < cs.length by omega)
    have hnext := ih (show first + 1 + n ≤ xs.length by omega)
      (show dst + 1 + n ≤ (cs.set dst (some xs[first])).length by rw [List.length_set]; omega)
    rw [ObjectStorage.uninitializedCopy, h.read_of_lt hlt, some_bind, hput, some_bind, hnext,
      overwrite_set_cons (by omega), take_drop_succ hlt, List.map_cons]

theorem Holds.moveFrom (h : Holds as xs) (moved : T → T) {i : ℕ} (hi : i + n ≤ xs.length)
    (hc : i + n ≤ cs.length) :
    moveFrom moved as cs i n =
      some (overwrite as i (((xs.drop i).take n).map fun x => some (moved x)),
        overwrite cs i (((xs.drop i).take n).map some)) := by
  induction n generalizing as cs xs i with
  | zero => simp [ObjectStorage.moveFrom]
  | succ n ih =>
    have hlt : i < xs.length := by omega
    have hle := h.length_le
    have hput : construct cs i xs[i] = some (cs.set i (some xs[i])) :=
      if_pos (show i < cs.length by omega)
    have hnext := ih (h.set hlt (moved xs[i])) (show i + 1 + n ≤ _ by rw [List.length_set]; omega)
      (show i + 1 + n ≤ (cs.set i (some xs[i])).length by rw [List.length_set]; omega)
    rw [ObjectStorage.moveFrom, h.read_of_lt hlt, some_bind, hput, some_bind, h.assign hlt,
      some_bind, hnext, List.drop_set_of_lt (by omega),
      overwrite_set_cons (by omega), overwrite_set_cons (by omega), take_drop_succ hlt,
      List.map_cons, List.map_cons]

theorem Holds.swapRanges (h : Holds as xs) (hc : Holds cs ys) {i : ℕ} (hi : i + n ≤ xs.length)
    (hj : i + n ≤ ys.length) :
    swapRanges as cs i n =
      some (overwrite as i (((ys.drop i).take n).map some),
        overwrite cs i (((xs.drop i).take n).map some)) := by
  induction n generalizing as cs xs ys i with
  | zero => simp [ObjectStorage.swapRanges]
  | succ n ih =>
    have hlt : i < xs.length := by omega
    have hlt' : i < ys.length := by omega
    have hle := h.length_le
    have hle' := hc.length_le
    have hnext := ih (h.set hlt ys[i]) (hc.set hlt' xs[i]) (i := i + 1)
      (by rw [List.length_set]; omega) (by rw [List.length_set]; omega)
    rw [ObjectStorage.swapRanges, h.read_of_lt hlt, some_bind, hc.read_of_lt hlt', some_bind,
      h.assign hlt, some_bind, hc.assign hlt', some_bind, hnext, List.drop_set_of_lt (by omega),
      List.drop_set_of_lt (by omega), overwrite_set_cons (by omega), overwrite_set_cons (by omega),
      take_drop_succ hlt, take_drop_succ hlt', List.map_cons, List.map_cons]

end LearnNetlib.ObjectStorage
