import LearnNetlib.Gtl.InlinedVectorOps

/-!
# Arguments that refer into the vector itself

`push_back(v[i])`, `insert(pos, v[i])` and `resize(n, v[i])`.  The append path reads its argument before
it moves anything; the other two grow first, and `insert` also moves the tail first.

* `Outlives` — when the object in an inline slot is still there after the vector has grown;
* `MovedFrom.deref` — what a reference to an element refers to then: what a move has left there,
  or nothing;
* **`self_argument_iff`** — when exactly each of the three uses the old value.
-/

namespace LearnNetlib.Gtl.InlinedVector

open ObjectStorage

variable {T : Type} {E : ElementType T} {v : InlinedVector T} {xs ys : List T} {cs : Cells T}
  {n i pos : ℕ} {x : T}

/-! ### One list -/

theorem Represents.length_lt (h : Represents E v xs) : xs.length < 2 ^ 48 := by
  rw [← h.size]
  cases hin : v.isInline with
  | true =>
    have htag := (v.tail 7).toNat_lt
    rw [size_of_inline hin]
    omega
  | false =>
    rw [size_of_outline hin]
    exact Nat.mod_lt _ (by decide)

/-- A vector is an encoding of one list only. -/
theorem Represents.unique (h : Represents E v xs) (h' : Represents E v ys) : xs = ys := by
  have hlen : xs.length = ys.length := h.size.symm.trans h'.size
  obtain ⟨cs, hrep, hc⟩ := h
  obtain ⟨cs', hrep', hc'⟩ := h'
  obtain rfl : cs = cs' := Option.some.inj (hrep.data.symm.trans hrep'.data)
  have hmap := List.prefix_of_prefix_length_le hc hc' (by simp [hlen])
  have heq := hmap.eq_of_length (by simp [hlen])
  exact List.map_injective_iff.mpr (fun _ _ => Option.some.inj) heq

/-! ### What growing leaves behind -/

/-- The object in slot `i` is not destroyed, and neither the pointer nor the word is written over it. -/
def Outlives (E : ElementType T) (v : InlinedVector T) (i : ℕ) : Prop :=
  v.isInline = true ∧ E.triviallyDestructible = true ∧ 8 ≤ i * E.sizeof ∧
    (i + 1) * E.sizeof ≤ E.kSize - 8

theorem read_endSlots (E : ElementType T) (lo hi : ℕ) (slots : Cells T) (i : ℕ) :
    read (endSlots E lo hi slots) i =
      if i * E.sizeof < hi ∧ lo < (i + 1) * E.sizeof then none else read slots i := by
  rw [ObjectStorage.read, endSlots, List.getElem?_mapIdx, ObjectStorage.read]
  cases slots[i]? with
  | none => simp
  | some c =>
    rw [Option.map_some]
    split <;> rfl

/-- The slots of an inline vector that gives up its storage. -/
theorem read_slots_discardStorage (h : Rep E v ys.length cs) (hc : Holds cs ys)
    (hin : v.isInline = true) {v₂ : InlinedVector T} (hd : v.discardStorage E = some v₂) {y : T}
    (hy : ys[i]? = some y) :
    read v₂.slots i = if E.triviallyDestructible then some y else none := by
  have hi := (List.getElem?_eq_some_iff.mp hy).1
  have hfit := E.kFit_lt
  have hsize := h.size_le
  have hlength := h.length
  rw [capacity_of_inline hin] at hlength
  obtain ⟨cs', hdestroy, hlen, -⟩ := destroyObjects_holds E (k := 0) (n := ys.length) hc (by omega)
  obtain ⟨v', hmod, -, hplace⟩ := modify_rep (f := fun cs => E.destroyObjects cs 0 v.size) h
    (by rw [h.size]; exact hdestroy) hlen
  have hslots : v'.slots = cs' := by
    have hstore := hmod
    rw [modify, h.data, some_bind, h.size, hdestroy, some_bind, Option.some.injEq] at hstore
    rw [← hstore, store, if_pos hin]
  rw [discardStorage, hmod, some_bind, if_pos (hplace.isInline.trans hin), Option.some.injEq] at hd
  rw [← hd, hslots]
  rw [ElementType.destroyObjects] at hdestroy
  by_cases htriv : E.triviallyDestructible = true
  · rw [if_pos htriv, Option.some.injEq] at hdestroy
    rw [if_pos htriv, ← hdestroy]
    exact hc.read hy
  · rw [if_neg htriv] at hdestroy ⊢
    have hcount : (Int.bmod ys.length (2 ^ 32)).toNat = ys.length := by
      rw [Int.bmod_def]
      split <;> omega
    exact read_destroy hdestroy (Nat.zero_le i) (by omega)

/-- The bytes `Grow` writes, over the slots that the old array has left. -/
theorem read_slots_outline (E : ElementType T) (w : InlinedVector T) (lg : UInt8) (s : ℕ) (b : Block T)
    (hi : (i + 1) * E.sizeof ≤ E.kSize - 1) :
    read ((((w.setTag 255).setLg E lg).setSize E s).setOutoflinePointer E b).slots i =
      if 8 ≤ i * E.sizeof ∧ (i + 1) * E.sizeof ≤ E.kSize - 8 then read w.slots i else none := by
  have hsize := E.sixteen_le_kSize
  have hpos := E.sizeof_pos
  have hout := (tail_setTag_setLg E w lg).1
  show read (endSlots E 0 8 (((w.setTag 255).setLg E lg).setSize E s).slots) i = _
  rw [slots_setSize E hout]
  show read (endSlots E 0 8 (endSlots E (E.kSize - 8) E.kSize
    (endSlots E (E.kSize - 2) (E.kSize - 1) w.slots))) i = _
  rw [read_endSlots, read_endSlots, read_endSlots]
  rw [Nat.succ_mul] at hi ⊢
  by_cases hkept : 8 ≤ i * E.sizeof ∧ i * E.sizeof + E.sizeof ≤ E.kSize - 8
  · rw [if_pos hkept, if_neg (by omega), if_neg (by omega), if_neg (by omega)]
  · rw [if_neg hkept]
    by_cases hpointer : i * E.sizeof < 8
    · rw [if_pos (by omega)]
    · rw [if_neg (by omega), if_pos (by omega)]

theorem elementRef_eq_inBlock {id : ℕ} (h : v.elementRef i = .inBlock id i) :
    v.isInline = false ∧ ∃ b, v.pointer = some b ∧ b.id = id := by
  unfold elementRef at h
  split at h
  · next b hin hb =>
    simp only [Ref.inBlock.injEq, and_true] at h
    exact ⟨hin, b, hb, h⟩
  · contradiction

/-- The array of `v` has been moved to the block `w` points at: what is left of it is in the slots. -/
structure MovedFrom (E : ElementType T) (v : InlinedVector T) (xs : List T) (w : InlinedVector T) :
    Prop where
  home : ∀ i, w.elementRef i = .inBlock (v.malloc 0).id i
  outlives : ∀ i x, xs[i]? = some x → Outlives E v i → read w.slots i = some (E.moved x)
  ends : ∀ i, i < xs.length → v.isInline = true → ¬ Outlives E v i → read w.slots i = none

theorem grow_movedFrom (h : Rep E v xs.length cs) (hc : Holds cs xs) (hbig : xs.length < 2 ^ 48)
    (hn : n ≤ 2 ^ 63) (hroom : xs.length ≤ n) {v' : InlinedVector T}
    (hg : grow E .move v n none = some v') : MovedFrom E v xs v' := by
  obtain ⟨lg, src, cells, v₂, hlg, hfit, htarget, hsrc, hmoved, hblock, -, hdiscard, hslots, hgrow⟩ :=
    grow_eq h hc hn (.inl rfl) .nothing hroom
  obtain ⟨-, hout⟩ := outline_rep (b := ⟨(v.malloc (2 ^ lg)).id, cells⟩) (s := xs.length) hslots hlg
    hblock hfit (by omega) hbig
  have hv' := Option.some.inj (hg.symm.trans hgrow)
  have hread : ∀ (i : ℕ) (x : T), xs[i]? = some x → v.isInline = true → read v'.slots i =
      if 8 ≤ i * E.sizeof ∧ (i + 1) * E.sizeof ≤ E.kSize - 8 then
        if E.triviallyDestructible then some (E.moved x) else none
      else none := by
    intro i x hx hin
    have hi := (List.getElem?_eq_some_iff.mp hx).1
    have hcap : xs.length ≤ E.kFit := by
      rw [← capacity_of_inline hin, ← h.length]
      exact h.size_le
    have hslot : (i + 1) * E.sizeof ≤ E.kSize - 1 :=
      (Nat.mul_le_mul_right E.sizeof (show i + 1 ≤ E.kFit by omega)).trans E.kFit_mul_sizeof_le
    obtain ⟨hstored, hplace⟩ := store_rep h hsrc
    rw [← List.length_map E.moved] at hstored
    have hleft := read_slots_discardStorage hstored hmoved (hplace.isInline.trans hin) hdiscard
      (show (xs.map E.moved)[i]? = some (E.moved x) by rw [List.getElem?_map, hx]; rfl)
    rw [hv', read_slots_outline E v₂ (UInt8.ofNat lg) xs.length _ hslot, hleft]
  refine ⟨?_, ?_, ?_⟩
  · intro i
    unfold elementRef
    rw [hv', hout]
    rfl
  · intro i x hx hlive
    obtain ⟨hin, htriv, hlo, hhi⟩ := hlive
    rw [hread i x hx hin, if_pos ⟨hlo, hhi⟩, if_pos htriv]
  · intro i hi hin hdead
    rw [hread i _ (List.getElem?_eq_getElem hi) hin]
    by_cases hkept : 8 ≤ i * E.sizeof ∧ (i + 1) * E.sizeof ≤ E.kSize - 8
    · rw [if_pos hkept, if_neg fun htriv => hdead ⟨hin, htriv, hkept⟩]
    · rw [if_neg hkept]

variable {w w' : InlinedVector T}

theorem MovedFrom.samePlace (h : MovedFrom E v xs w) (hplace : SamePlace w w') :
    MovedFrom E v xs w' := by
  have hslots := hplace.slots (elementRef_eq_inBlock (h.home 0)).1
  refine ⟨fun i => (hplace.elementRef i).trans (h.home i), ?_, ?_⟩
  · rw [hslots]
    exact h.outlives
  · rw [hslots]
    exact h.ends

theorem MovedFrom.setSize {m k : ℕ} (h : MovedFrom E v xs w) (hrep : Rep E w m cs)
    (hk : k ≤ cs.length) (hbig : k < 2 ^ 48) : MovedFrom E v xs (w.setSize E k) := by
  have hslots := slots_setSize E (elementRef_eq_inBlock (h.home 0)).1 k
  refine ⟨fun i => ((setSize_rep hrep hk hbig).2 i).trans (h.home i), ?_, ?_⟩
  · intro i x hx hlive
    have hhi := hlive.2.2.2
    rw [hslots, read_endSlots, if_neg (by omega)]
    exact h.outlives i x hx hlive
  · intro i hi hin hdead
    rw [hslots, read_endSlots, h.ends i hi hin hdead, ite_self]

/-- **A reference to an element, after growing**: what a move has left in the slot, or nothing. -/
theorem MovedFrom.deref (h : MovedFrom E v xs w) (hdata : v.data = some cs)
    (hx : xs[i]? = some x) :
    (Outlives E v i → w.deref (v.elementRef i) = some (E.moved x)) ∧
      (¬ Outlives E v i → w.deref (v.elementRef i) = none) := by
  cases hin : v.isInline with
  | true =>
    have href : v.elementRef i = .slot i := by simp [elementRef, hin]
    rw [href]
    exact ⟨h.outlives i x hx, h.ends i (List.getElem?_eq_some_iff.mp hx).1 hin⟩
  | false =>
    rw [data_of_outline hin, Option.map_eq_some_iff] at hdata
    obtain ⟨b, hb, -⟩ := hdata
    obtain ⟨-, b', hb', hid⟩ := elementRef_eq_inBlock (h.home i)
    have href : v.elementRef i = .inBlock b.id i := by simp [elementRef, hin, hb]
    have hnew : b'.id ≠ b.id := by
      rw [hid, malloc, hb]
      exact Nat.succ_ne_self b.id
    constructor
    · intro hlive
      rw [hlive.1] at hin
      contradiction
    · intro _
      rw [href, InlinedVector.deref, hb', Option.bind_some, if_neg hnew]

/-! ### The three uses -/

/-- `push_back(v[i])` appends the old value. -/
def AppendsOld (E : ElementType T) (v : InlinedVector T) (xs : List T) (i : ℕ) (x : T) : Prop :=
  ∃ v', v.emplaceBack E (v.elementRef i) = some v' ∧ Represents E v' (xs ++ [x])

/-- `insert(pos, v[i])` inserts the old value. -/
def InsertsOld (E : ElementType T) (v : InlinedVector T) (xs : List T) (pos i : ℕ) (x : T) : Prop :=
  ∃ v', v.insert E pos (v.elementRef i) = some (v', pos) ∧
    Represents E v' (xs.take pos ++ x :: xs.drop pos)

/-- `resize(n, v[i])` fills with the old value. -/
def FillsOld (E : ElementType T) (v : InlinedVector T) (xs : List T) (n i : ℕ) (x : T) : Prop :=
  ∃ v', v.resizeFill E n (v.elementRef i) = some v' ∧
    Represents E v' (xs.take n ++ List.replicate (n - xs.length) x)

/-- The old value can still be read in its slot after the vector has grown. -/
def Keeps (E : ElementType T) (v : InlinedVector T) (i : ℕ) (x : T) : Prop :=
  Outlives E v i ∧ E.moved x = x

/-- At the end; or without growing, and not from behind `pos` unless the value before is the same; or
growing, and the old value is kept. -/
def InsertSafe (E : ElementType T) (v : InlinedVector T) (xs : List T) (pos i : ℕ) (x : T) : Prop :=
  pos = xs.length ∨ (xs.length < v.capacity E ∧ (i ≤ pos ∨ xs[i - 1]? = some x)) ∨
    (xs.length = v.capacity E ∧ Keeps E v i x)

/-- Without growing, or growing and the old value is kept. -/
def ResizeSafe (E : ElementType T) (v : InlinedVector T) (n i : ℕ) (x : T) : Prop :=
  n ≤ v.capacity E ∨ Keeps E v i x

theorem appendsOld_iff (h : Represents E v xs) (hx : xs[i]? = some x) :
    AppendsOld E v xs i x ↔ xs.length + 1 < 2 ^ 48 := by
  constructor
  · rintro ⟨v', -, h'⟩
    have hlen := h'.length_lt
    rwa [List.length_append, List.length_singleton] at hlen
  · intro hbig
    exact emplaceBack_represents h hbig (h.deref_elementRef hx)

/-- After growing, the reference gives the value `x` exactly when `x` is kept. -/
theorem MovedFrom.deref_eq_some_iff (h : MovedFrom E v xs w) (hdata : v.data = some cs)
    (hx : xs[i]? = some x) : w.deref (v.elementRef i) = some x ↔ Keeps E v i x := by
  obtain ⟨hlive, hdead⟩ := h.deref hdata hx
  by_cases hkeeps : Outlives E v i
  · rw [hlive hkeeps, Option.some.injEq, Keeps, and_iff_right hkeeps]
  · rw [hdead hkeeps, Keeps]
    simp [hkeeps]

/-- The element at `i` after those from `pos` on have moved up. -/
theorem getElem?_shifted (hpos : pos < xs.length) (hx : xs[i]? = some x) :
    (xs.take (pos + 1) ++ xs.drop pos)[i]? = some x ↔ i ≤ pos ∨ xs[i - 1]? = some x := by
  by_cases hi : i ≤ pos
  · rw [List.getElem?_append_left (by rw [List.length_take]; omega), List.getElem?_take,
      if_pos (by omega)]
    simp [hi, hx]
  · rw [List.getElem?_append_right (by rw [List.length_take]; omega), List.length_take,
      List.getElem?_drop, show pos + (i - min (pos + 1) xs.length) = i - 1 by omega]
    simp [hi]

/-- **`insert(pos, v[i])`.** -/
theorem insertsOld_iff (h : Represents E v xs) (hx : xs[i]? = some x) (hpos : pos ≤ xs.length) :
    InsertsOld E v xs pos i x ↔ xs.length + 1 < 2 ^ 48 ∧ InsertSafe E v xs pos i x := by
  have hfits : InsertsOld E v xs pos i x → xs.length + 1 < 2 ^ 48 := by
    rintro ⟨v', -, h'⟩
    have hlen := h'.length_lt
    rw [List.length_append, List.length_cons, List.length_take, List.length_drop] at hlen
    omega
  rw [← and_iff_right_of_imp hfits]
  refine and_congr_right fun hbig => ?_
  rcases Nat.lt_or_eq_of_le hpos with hlt | rfl
  · obtain ⟨cs, hrep, hc⟩ := id h
    have hcap := h.length_le
    obtain ⟨v₁, v₂, cs₂, hroom, hdata, hc₂, hplace, hnone, hsome⟩ := insert_eq h hbig hlt
    -- what is inserted is what the reference refers to in `v₂`
    have hread : InsertsOld E v xs pos i x ↔ v₂.deref (v.elementRef i) = some x := by
      constructor
      · rintro ⟨v', hins, h'⟩
        cases hderef : v₂.deref (v.elementRef i) with
        | none =>
          rw [hnone _ hderef] at hins
          contradiction
        | some y =>
          obtain ⟨v'', hins', h''⟩ := hsome _ y hderef
          obtain ⟨rfl, -⟩ := Prod.mk.inj (Option.some.inj (hins.symm.trans hins'))
          have heq := List.append_cancel_left (h''.unique h')
          rw [(List.cons.inj heq).1]
      · exact hsome _ x
    rw [hread, InsertSafe]
    by_cases hfull : xs.length = v.capacity E
    · rw [if_pos hfull] at hroom
      have hmoved := (grow_movedFrom hrep hc (by omega) (by omega) (by omega) hroom).samePlace hplace
      rw [hmoved.deref_eq_some_iff hrep.data hx]
      simp [hfull, show pos ≠ v.capacity E by omega]
    · rw [if_neg hfull, Option.some.injEq] at hroom
      subst hroom
      have hlen : (xs.take (pos + 1) ++ xs.drop pos).length = xs.length + 1 := by
        rw [List.length_append, List.length_take, List.length_drop]
        omega
      have hi := (List.getElem?_eq_some_iff.mp hx).1
      have hcell := hc₂.read (List.getElem?_eq_getElem (show i < _ by omega))
      rw [← hplace.elementRef, InlinedVector.deref_elementRef hdata, hcell,
        ← List.getElem?_eq_getElem, getElem?_shifted hlt hx]
      simp [hfull, show pos ≠ xs.length by omega, show xs.length < v.capacity E by omega]
  · refine iff_of_true ?_ (.inl rfl)
    obtain ⟨v', hins, h'⟩ := insert_end_represents h hbig (h.deref_elementRef hx)
    exact ⟨v', hins, by rwa [List.take_length, List.drop_length]⟩

/-- **`resize(n, v[i])`.** -/
theorem fillsOld_iff (h : Represents E v xs) (hx : xs[i]? = some x) :
    FillsOld E v xs n i x ↔ n < 2 ^ 48 ∧ ResizeSafe E v n i x := by
  have hbig := h.length_lt
  have hcap := h.length_le
  have hfits : FillsOld E v xs n i x → n < 2 ^ 48 := by
    rintro ⟨v', -, h'⟩
    have hlen := h'.length_lt
    rw [List.length_append, List.length_take, List.length_replicate] at hlen
    omega
  rw [← and_iff_right_of_imp hfits]
  refine and_congr_right fun hn => ?_
  rw [ResizeSafe]
  by_cases hroom : n ≤ v.capacity E
  · refine iff_of_true ?_ (.inl hroom)
    refine resizeFill_represents h hbig hn fun v' hlt hres => ?_
    rw [reserve, if_neg (by omega), Option.some.injEq] at hres
    subst hres
    obtain ⟨cs, hrep, -⟩ := id h
    rw [← (setSize_rep hrep (hrep.length ▸ hroom) hn).2]
    exact steady_elementRef hx
  · rw [or_iff_right hroom]
    obtain ⟨cs, hrep, hc⟩ := id h
    obtain ⟨v₁, cs₁, hres, hrep₁, hc₁, hlt⟩ := reserve_rep (n := n) hrep hc hbig (by omega)
    have hgrow := hres
    rw [reserve, if_pos (by omega)] at hgrow
    have hmoved := (grow_movedFrom hrep hc hbig (by omega) (by omega) hgrow).setSize hrep₁ hlt hn
    obtain ⟨-, hdead⟩ := hmoved.deref hrep.data hx
    by_cases hlive : Outlives E v i
    · -- every read is of the object left in the slot
      have hsteady : Steady (v₁.setSize E n) xs (v.elementRef i) (E.moved x) := by
        intro v' cs' hplace _ _
        exact ((hmoved.samePlace hplace).deref hrep.data hx).1 hlive
      obtain ⟨v₂, hfill, h₂⟩ := resizeFill_represents h hbig hn fun v' _ hres' =>
        Option.some.inj (hres.symm.trans hres') ▸ hsteady
      constructor
      · rintro ⟨v', hfill', h'⟩
        obtain rfl := Option.some.inj (hfill.symm.trans hfill')
        have heq := List.append_cancel_left (h₂.unique h')
        exact ⟨hlive, (List.replicate_right_inj (by omega)).mp heq⟩
      · rintro ⟨-, hkept⟩
        rw [hkept] at h₂
        exact ⟨v₂, hfill, h₂⟩
    · refine iff_of_false ?_ fun hkeeps => hlive hkeeps.1
      rintro ⟨v', hfill, -⟩
      obtain ⟨k, hk⟩ : ∃ k, n - xs.length = k + 1 := ⟨n - xs.length - 1, by omega⟩
      rw [resizeFill, resizeWith, hrep.size] at hfill
      rw [if_neg (by omega), hres, some_bind, hk, fill, hdead hlive] at hfill
      contradiction

/-- **Arguments that refer into the vector**: for every element, `push_back` uses its old value whenever
there is a size for the result; `insert` and `resize` do so exactly when the argument is neither shifted
nor lost before it is read. -/
theorem self_argument_iff (h : Represents E v xs) (hx : xs[i]? = some x) :
    (AppendsOld E v xs i x ↔ xs.length + 1 < 2 ^ 48) ∧
      (∀ pos ≤ xs.length,
        InsertsOld E v xs pos i x ↔ xs.length + 1 < 2 ^ 48 ∧ InsertSafe E v xs pos i x) ∧
      ∀ n, FillsOld E v xs n i x ↔ n < 2 ^ 48 ∧ ResizeSafe E v n i x :=
  ⟨appendsOld_iff h hx, fun _ hpos => insertsOld_iff h hx hpos, fun _ => fillsOld_iff h hx⟩

/-- `insert(0, v[1])` into `[1, 2]`, where there is room: `v[1]` is `1` when it is read. -/
theorem insert_self_not_old :
    ∃ v v', newRange (.uint32 2) (fun _ => 0) [1, 2] = some v ∧
      v.insert (.uint32 2) 0 (v.elementRef 1) = some (v', 0) ∧
      Represents (.uint32 2) v' [1, 1, 2] ∧ ¬ Represents (.uint32 2) v' [2, 1, 2] := by
  obtain ⟨v, hnew, h⟩ := newRange_represents (.uint32 2) (fun _ => 0)
    (show ([1, 2] : List UInt32).length < 2 ^ 48 by decide)
  have hcap : v.capacity (.uint32 2) = 3 := by
    rw [← Option.some.inj hnew]
    rfl
  obtain ⟨v₁, v₂, cs₂, hroom, hdata, hc₂, hplace, -, hsome⟩ :=
    insert_eq h (by decide) (show 0 < ([1, 2] : List UInt32).length by decide)
  rw [hcap, if_neg (by decide), Option.some.injEq] at hroom
  have hread : v₂.deref (v.elementRef 1) = some 1 := by
    rw [hroom, ← hplace.elementRef, InlinedVector.deref_elementRef hdata]
    exact hc₂.read rfl
  obtain ⟨v', hins, h'⟩ := hsome _ 1 hread
  exact ⟨v, v', hnew, hins, h', fun hold => by simpa using h'.unique hold⟩

/-- Three elements fill the slots; `push_back(v[0])` is right, `insert(1, v[0])` and `resize(4, v[0])` are
not. -/
theorem self_argument_iff_three :
    ∃ v, newRange (.uint32 2) (fun _ => 0) [1, 2, 3] = some v ∧
      AppendsOld (.uint32 2) v [1, 2, 3] 0 1 ∧ ¬ InsertsOld (.uint32 2) v [1, 2, 3] 1 0 1 ∧
      ¬ FillsOld (.uint32 2) v [1, 2, 3] 4 0 1 := by
  obtain ⟨v, hnew, h⟩ := newRange_represents (.uint32 2) (fun _ => 0)
    (show ([1, 2, 3] : List UInt32).length < 2 ^ 48 by decide)
  have hcap : v.capacity (.uint32 2) = 3 := by
    rw [← Option.some.inj hnew]
    rfl
  -- the pointer is written over slot 0
  have hkeeps : ¬ Keeps (.uint32 2) v 0 1 := by
    rintro ⟨⟨-, -, hlo, -⟩, -⟩
    simp at hlo
  obtain ⟨happend, hinsert, hfill⟩ := self_argument_iff h (show [1, 2, 3][0]? = some 1 from rfl)
  refine ⟨v, hnew, happend.mpr (by decide), ?_, ?_⟩
  · rw [hinsert 1 (by decide), InsertSafe, hcap]
    simp [hkeeps]
  · rw [hfill 4, ResizeSafe, hcap]
    simp [hkeeps]

end LearnNetlib.Gtl.InlinedVector
