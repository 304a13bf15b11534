import LearnNetlib.Gtl.InlinedVector

/-!
# What the operations of an inlined vector do to its contents

* `Represents` — the object encodes a list;
* one theorem per operation: from the list before to the list after.  Arguments are references; where
  an operation reads its argument late, its theorem asks for what the reference refers to **then**.
-/

namespace LearnNetlib.Gtl.InlinedVector

open ObjectStorage

variable {T : Type} {E : ElementType T} {v w : InlinedVector T} {xs ys : List T} {cs : Cells T}
  {n : ℕ} {x : T} {r : Ref T}

/-- The object encodes the list. -/
def Represents (E : ElementType T) (v : InlinedVector T) (xs : List T) : Prop :=
  ∃ cs, Rep E v xs.length cs ∧ Holds cs xs

theorem Represents.size (h : Represents E v xs) : v.size = xs.length := by
  obtain ⟨cs, hrep, -⟩ := h
  exact hrep.size

theorem Represents.length_le (h : Represents E v xs) : xs.length ≤ v.capacity E := by
  obtain ⟨cs, hrep, -⟩ := h
  rw [← hrep.length]
  exact hrep.size_le

/-- A reference to an element refers to it. -/
theorem Represents.deref_elementRef (h : Represents E v xs) {i : ℕ} (hi : xs[i]? = some x) :
    v.deref (v.elementRef i) = some x := by
  obtain ⟨cs, hrep, hc⟩ := h
  rw [InlinedVector.deref_elementRef hrep.data]
  exact hc.read hi

/-- **A loop over the array**: what it overwrites is overwritten in the list. -/
theorem modify_overwrite {m k : ℕ} (ys : List T) (h : Rep E v m cs) (hc : Holds cs xs)
    {f : Cells T → Option (Cells T)} (hf : f cs = some (overwrite cs k (ys.map some)))
    (hk : k ≤ xs.length) (hroom : k + ys.length ≤ cs.length) :
    ∃ v' cs', v.modify E f = some v' ∧ Rep E v' m cs' ∧ Holds cs' (overwrite xs k ys) ∧
      cs'.length = cs.length ∧ SamePlace v v' := by
  have hcs := hc.length_le
  have hlen : (overwrite cs k (ys.map some)).length = cs.length := by
    rw [length_overwrite (by omega), List.length_map]
    omega
  obtain ⟨v', hmod, hrep', hplace⟩ := modify_rep h hf hlen
  exact ⟨v', _, hmod, hrep', hc.overwritten hk ys, hlen, hplace⟩

/-! ### Room -/

/-- Growing, unless there is room. -/
theorem room_rep {p : Prop} [Decidable p] (h : Rep E v xs.length cs) (hc : Holds cs xs)
    (hbig : xs.length < 2 ^ 48) (hn : n ≤ 2 ^ 63) {mover : Mover} (hmover : mover = .move ∨ xs = [])
    (hp : p → xs.length ≤ n) (hnot : ¬ p → n ≤ cs.length) :
    ∃ v' cs', (if p then grow E mover v n none else some v) = some v' ∧ Rep E v' xs.length cs' ∧
      Holds cs' xs ∧ n ≤ cs'.length := by
  by_cases hgrow : p
  · obtain ⟨v', cs', hg, hrep, hc', hroom⟩ :=
      grow_rep h hc hbig hn hmover .nothing (by rw [List.length_nil]; exact hp hgrow)
    rw [List.append_nil] at hc'
    exact ⟨v', cs', by rw [if_pos hgrow]; exact hg, hrep, hc', hroom⟩
  · exact ⟨v, cs, if_neg hgrow, h, hc, hnot hgrow⟩

theorem reserve_rep (h : Rep E v xs.length cs) (hc : Holds cs xs) (hbig : xs.length < 2 ^ 48)
    (hn : n ≤ 2 ^ 63) :
    ∃ v' cs', v.reserve E n = some v' ∧ Rep E v' xs.length cs' ∧ Holds cs' xs ∧ n ≤ cs'.length := by
  have hlength := h.length
  have hsize := h.size_le
  exact room_rep h hc hbig hn (.inl rfl) (fun hgrow => by omega) fun hroom => by omega

/-- **`reserve` changes neither size nor contents.** -/
theorem reserve_represents (h : Represents E v xs) (hbig : xs.length < 2 ^ 48) (hn : n ≤ 2 ^ 63) :
    ∃ v', v.reserve E n = some v' ∧ Represents E v' xs ∧ n ≤ v'.capacity E := by
  obtain ⟨cs, hrep, hc⟩ := h
  obtain ⟨v', cs', hres, hrep', hc', hroom⟩ := reserve_rep hrep hc hbig hn
  exact ⟨v', hres, ⟨cs', hrep', hc'⟩, hrep'.length ▸ hroom⟩

/-! ### At the end -/

/-- **`push_back`** of whatever the argument refers to when it is called. -/
theorem emplaceBack_represents (h : Represents E v xs) (hbig : xs.length + 1 < 2 ^ 48)
    (hr : v.deref r = some x) :
    ∃ v', v.emplaceBack E r = some v' ∧ Represents E v' (xs ++ [x]) := by
  obtain ⟨cs, hrep, hc⟩ := h
  have hlength := hrep.length
  have happ : (xs ++ [x]).length = xs.length + 1 := by simp
  rw [emplaceBack, hrep.size]
  by_cases hroom : xs.length < v.capacity E
  · obtain ⟨v₁, cs₁, hmod, hrep₁, hc₁, hlen₁, -⟩ := modify_overwrite [x] hrep hc
      (f := fun cs => construct cs xs.length x) (construct_eq (by omega) x) le_rfl
      (by rw [List.length_singleton]; omega)
    rw [overwrite_length_self] at hc₁
    obtain ⟨hrep₂, -⟩ := setSize_rep (m := xs.length + 1) hrep₁ (by omega) hbig
    rw [if_pos hroom, hr, some_bind, hmod, some_bind]
    exact ⟨_, rfl, _, happ ▸ hrep₂, hc₁⟩
  · obtain ⟨v₁, cs₁, hg, hrep₁, hc₁, hroom₁⟩ :=
      grow_rep (n := xs.length + 1) hrep hc (by omega) (by omega) (.inl rfl) (.one hr)
        (by rw [List.length_singleton])
    obtain ⟨hrep₂, -⟩ := setSize_rep (m := xs.length + 1) hrep₁ hroom₁ hbig
    rw [if_neg hroom, hg, some_bind]
    exact ⟨_, rfl, _, happ ▸ hrep₂, hc₁⟩

/-- The last objects are destroyed, and the size is what is left. -/
theorem truncate_represents (h : Rep E v xs.length cs) {zs : List T} (hc : Holds cs zs)
    (hzs : zs.length = xs.length) {k : ℕ} (hk : k + n = xs.length) (hbig : xs.length < 2 ^ 48) :
    ∃ v', v.modify E (fun cs => E.destroyObjects cs k n) = some v' ∧
      Represents E (v'.setSize E k) (zs.take k) := by
  obtain ⟨cs', hd, hlen, hc'⟩ := destroyObjects_holds E (k := k) (n := n) hc (by omega)
  obtain ⟨v', hmod, hrep', -⟩ :=
    modify_rep (f := fun cs => E.destroyObjects cs k n) h hd hlen
  have hsize := h.size_le
  obtain ⟨hrep'', -⟩ := setSize_rep (m := k) hrep' (by omega) (by omega)
  have htake : (zs.take k).length = k := by
    rw [List.length_take]
    omega
  exact ⟨v', hmod, cs', htake.symm ▸ hrep'', hc'⟩

theorem popBack_represents (h : Represents E v xs) (hbig : xs.length < 2 ^ 48) (hne : xs ≠ []) :
    ∃ v', v.popBack E = some v' ∧ Represents E v' xs.dropLast := by
  obtain ⟨cs, hrep, hc⟩ := h
  have hpos := List.length_pos_iff.mpr hne
  obtain ⟨v₁, hmod, hrep₁⟩ :=
    truncate_represents (k := xs.length - 1) (n := 1) hrep hc rfl (by omega) hbig
  refine ⟨_, by rw [popBack, hrep.size, hmod, some_bind], ?_⟩
  rwa [List.dropLast_eq_take]

/-! ### Filling -/

/-- The reference refers to `x` as long as the array at `data()` stays where it is and begins
with `xs`. -/
def Steady (v : InlinedVector T) (xs : List T) (r : Ref T) (x : T) : Prop :=
  ∀ (v' : InlinedVector T) (cs' : Cells T), SamePlace v v' → v'.data = some cs' → Holds cs' xs →
    v'.deref r = some x

theorem steady_outside (v : InlinedVector T) (xs : List T) (x : T) : Steady v xs (.outside x) x :=
  fun _ _ _ _ _ => rfl

theorem steady_elementRef {i : ℕ} (hi : xs[i]? = some x) : Steady v xs (v.elementRef i) x := by
  intro v' cs' hplace hdata hc
  rw [← hplace.elementRef, InlinedVector.deref_elementRef hdata]
  exact hc.read hi

/-- The loop of `Fill`, after `ys` have been constructed. -/
theorem fill_loop {m : ℕ} (hr : Steady v xs r x) (n : ℕ) :
    ∀ (ys : List T) (v' : InlinedVector T) (cs' : Cells T), Rep E v' m cs' →
      Holds cs' (xs ++ ys) → SamePlace v v' → (xs ++ ys).length + n ≤ cs'.length →
      ∃ v'' cs'', fill E r v' (xs ++ ys).length n = some v'' ∧ Rep E v'' m cs'' ∧
        Holds cs'' (xs ++ ys ++ List.replicate n x) := by
  induction n with
  | zero =>
    intro ys v' cs' h hc _ _
    refine ⟨v', cs', rfl, h, ?_⟩
    rwa [List.replicate_zero, List.append_nil]
  | succ n ih =>
    intro ys v' cs' h hc hplace hroom
    have hderef := hr v' cs' hplace h.data (hc.mono (List.prefix_append xs ys))
    obtain ⟨v₁, cs₁, hmod, hrep₁, hc₁, hlen₁, hplace₁⟩ := modify_overwrite [x] h hc
      (f := fun cs => construct cs (xs ++ ys).length x) (construct_eq (by omega) x) le_rfl
      (by rw [List.length_singleton]; omega)
    rw [overwrite_length_self, List.append_assoc] at hc₁
    obtain ⟨v₂, cs₂, hfill, hrep₂, hc₂⟩ := ih (ys ++ [x]) v₁ cs₁ hrep₁ hc₁
      (hplace.trans hplace₁)
      (by simp only [List.length_append, List.length_singleton] at hroom ⊢; omega)
    refine ⟨v₂, cs₂, ?_, hrep₂, ?_⟩
    · rw [fill, hderef, some_bind, hmod, some_bind]
      rwa [← List.append_assoc, List.length_append, List.length_singleton] at hfill
    · rw [List.replicate_succ]
      simpa [List.append_assoc] using hc₂

/-- `Fill` and `ValueInit`: the array begins with `xs`, and `n` copies go behind them. -/
theorem fill_rep {m : ℕ} (h : Rep E v m cs) (hc : Holds cs xs) (hr : Steady v xs r x)
    (hroom : xs.length + n ≤ cs.length) :
    ∃ v' cs', fill E r v xs.length n = some v' ∧ Rep E v' m cs' ∧
      Holds cs' (xs ++ List.replicate n x) := by
  have hfill := fill_loop hr n [] v cs h (by rwa [List.append_nil]) (.refl v)
    (by rwa [List.append_nil])
  rwa [List.append_nil] at hfill

/-- `Resize`, for elements the reference refers to once there is room. -/
theorem resizeFill_represents (h : Represents E v xs) (hbig : xs.length < 2 ^ 48)
    (hn : n < 2 ^ 48)
    (hr : ∀ v', xs.length < n → v.reserve E n = some v' → Steady (v'.setSize E n) xs r x) :
    ∃ v', v.resizeFill E n r = some v' ∧
      Represents E v' (xs.take n ++ List.replicate (n - xs.length) x) := by
  obtain ⟨cs, hrep, hc⟩ := h
  rw [resizeFill, resizeWith, hrep.size]
  by_cases hle : n ≤ xs.length
  · obtain ⟨v₁, hmod, hrep₁⟩ :=
      truncate_represents (k := n) (n := xs.length - n) hrep hc rfl (by omega) hbig
    rw [if_pos hle, hmod, some_bind]
    refine ⟨_, rfl, ?_⟩
    rwa [Nat.sub_eq_zero_of_le hle, List.replicate_zero, List.append_nil]
  · obtain ⟨v₁, cs₁, hres, hrep₁, hc₁, hroom₁⟩ := reserve_rep (n := n) hrep hc hbig (by omega)
    obtain ⟨hrep₂, -⟩ := setSize_rep (m := n) hrep₁ hroom₁ hn
    obtain ⟨v₃, cs₃, hfill, hrep₃, hc₃⟩ :=
      fill_rep (n := n - xs.length) hrep₂ hc₁ (hr v₁ (by omega) hres) (by omega)
    rw [if_neg hle, hres, some_bind]
    refine ⟨v₃, hfill, cs₃, ?_, ?_⟩
    · rw [List.take_of_length_le (by omega), List.length_append, List.length_replicate]
      rwa [show xs.length + (n - xs.length) = n from by omega]
    · rwa [List.take_of_length_le (by omega)]

theorem resizeFill_outside_represents (h : Represents E v xs) (hbig : xs.length < 2 ^ 48)
    (hn : n < 2 ^ 48) (x : T) :
    ∃ v', v.resizeFill E n (.outside x) = some v' ∧
      Represents E v' (xs.take n ++ List.replicate (n - xs.length) x) :=
  resizeFill_represents h hbig hn fun v' _ _ => steady_outside (v'.setSize E n) xs x

theorem resize_represents (h : Represents E v xs) (hbig : xs.length < 2 ^ 48) (hn : n < 2 ^ 48) :
    ∃ v', v.resize E n = some v' ∧
      Represents E v' (xs.take n ++ List.replicate (n - xs.length) E.init) :=
  resizeFill_outside_represents h hbig hn E.init

/-! ### In the middle -/

/-- What `insert` does before it reads its argument: there is room, and the elements from `pos` on have
moved up by one. -/
theorem shift_rep (h : Rep E v xs.length cs) (hc : Holds cs xs) {pos : ℕ} (hpos : pos < xs.length)
    (hroom : xs.length < cs.length) :
    ∃ v₁ v₂ cs₂,
      v.modify E (fun cs => do
        let x ← read cs (xs.length - 1)
        construct cs xs.length x) = some v₁ ∧
      v₁.modify E (fun cs => copyBackward cs pos (pos + 1) (xs.length - 1 - pos)) = some v₂ ∧
      Rep E v₂ xs.length cs₂ ∧ Holds cs₂ (xs.take (pos + 1) ++ xs.drop pos) ∧
      xs.length < cs₂.length ∧ SamePlace v v₂ := by
  obtain ⟨zs, l, rfl⟩ : ∃ zs l, xs = zs ++ [l] := by
    have hne : xs ≠ [] := by
      rintro rfl
      simp at hpos
    exact ⟨xs.dropLast, xs.getLast hne, (List.dropLast_append_getLast hne).symm⟩
  have hlen : (zs ++ [l]).length = zs.length + 1 := by simp
  -- the last element once more, behind the others
  have hread : read cs ((zs ++ [l]).length - 1) = some l := hc.read (by simp)
  obtain ⟨v₁, cs₁, hmod₁, hrep₁, hc₁, hlen₁, hplace₁⟩ := modify_overwrite [l] h hc
    (f := fun cs => do
      let x ← read cs ((zs ++ [l]).length - 1)
      construct cs (zs ++ [l]).length x)
    (by rw [hread, some_bind, construct_eq hroom]; rfl) le_rfl
    (by rw [List.length_singleton]; omega)
  rw [overwrite_length_self] at hc₁
  -- the others, from behind
  have hcopy := Holds.copyBackward (n := (zs ++ [l]).length - 1 - pos) hc₁
    (show pos ≤ pos + 1 by omega) (by simp only [List.length_append, List.length_singleton]; omega)
  have hmoved : (zs ++ [l] ++ [l]).drop pos = zs.drop pos ++ [l, l] := by
    rw [List.append_assoc, List.drop_append_of_le_length (by omega)]
    rfl
  have htaken : (zs.drop pos ++ [l, l]).take ((zs ++ [l]).length - 1 - pos) = zs.drop pos :=
    List.take_left' (by rw [List.length_drop]; omega)
  rw [hmoved, htaken] at hcopy
  have hshifted : overwrite (zs ++ [l] ++ [l]) (pos + 1) (zs.drop pos) =
      (zs ++ [l]).take (pos + 1) ++ (zs ++ [l]).drop pos := by
    rw [overwrite, List.length_drop, show pos + 1 + (zs.length - pos) = (zs ++ [l]).length from by
      omega, List.drop_left, List.take_append_of_le_length (by omega),
      List.drop_append_of_le_length (by omega), List.append_assoc]
  obtain ⟨v₂, cs₂, hmod₂, hrep₂, hc₂, hlen₂, hplace₂⟩ := modify_overwrite _ hrep₁ hc₁
    (f := fun cs => copyBackward cs pos (pos + 1) ((zs ++ [l]).length - 1 - pos)) hcopy
    (by rw [List.length_append]; omega) (by rw [List.length_drop]; omega)
  rw [hshifted] at hc₂
  exact ⟨v₁, v₂, cs₂, hmod₁, hmod₂, hrep₂, hc₂, by omega, hplace₁.trans hplace₂⟩

/-- **`insert` before the end**: what is inserted is what the argument refers to after the storage has
grown, if it must, and the tail has moved. -/
theorem insert_eq (h : Represents E v xs) (hbig : xs.length + 1 < 2 ^ 48) {pos : ℕ}
    (hpos : pos < xs.length) :
    ∃ (v₁ v₂ : InlinedVector T) (cs₂ : Cells T),
      (if xs.length = v.capacity E then grow E .move v (xs.length + 1) none else some v) = some v₁ ∧
      v₂.data = some cs₂ ∧ Holds cs₂ (xs.take (pos + 1) ++ xs.drop pos) ∧
      SamePlace v₁ v₂ ∧
      (∀ r, v₂.deref r = none → v.insert E pos r = none) ∧
      ∀ r y, v₂.deref r = some y → ∃ v', v.insert E pos r = some (v', pos) ∧
        Represents E v' (xs.take pos ++ y :: xs.drop pos) := by
  obtain ⟨cs, hrep, hc⟩ := h
  have hlength := hrep.length
  have hsize := hrep.size_le
  obtain ⟨v₁, cs₁, hroom, hrep₁, hc₁, hlt⟩ := room_rep (p := xs.length = v.capacity E)
    (n := xs.length + 1) hrep hc (by omega) (by omega) (.inl rfl) (fun _ => by omega) fun _ => by omega
  rw [Nat.add_one_le_iff] at hlt
  obtain ⟨v', v₂, cs₂, hmod, hmod₂, hrep₂, hc₂, hlt₂, hplace⟩ := shift_rep hrep₁ hc₁ hpos hlt
  have hinsert : ∀ r, v.insert E pos r = (do
      let x ← v₂.deref r
      let v ← v₂.modify E fun cs => assign cs pos x
      some (v.setSize E (xs.length + 1), pos)) := by
    intro r
    rw [insert, hrep.size, if_neg (by omega)]
    dsimp only
    rw [hroom, some_bind, ← hrep₁.length, if_pos hlt, hmod, some_bind, hmod₂, some_bind]
  refine ⟨v₁, v₂, cs₂, hroom, hrep₂.data, hc₂, hplace, ?_, ?_⟩
  · intro r hr
    rw [hinsert, hr]
    rfl
  · intro r y hr
    have htake : (xs.take (pos + 1) ++ xs.drop pos).length = xs.length + 1 := by
      rw [List.length_append, List.length_take, List.length_drop]
      omega
    have hput := hc₂.assign (k := pos) (by omega) y
    obtain ⟨v₃, hmod₃, hrep₃, -⟩ := modify_rep (f := fun cs => assign cs pos y) hrep₂ hput
      (by rw [List.length_set])
    obtain ⟨hrep₄, -⟩ := setSize_rep (m := xs.length + 1) hrep₃
      (by rw [List.length_set]; omega) hbig
    have hset : (xs.take (pos + 1) ++ xs.drop pos).set pos y = xs.take pos ++ y :: xs.drop pos := by
      rw [List.set_eq_take_append_cons_drop, if_pos (by omega),
        List.take_append_of_le_length (by rw [List.length_take]; omega), List.take_take,
        List.drop_append, List.length_take]
      congr 1
      · congr 1
        omega
      · rw [List.drop_of_length_le (by rw [List.length_take]; omega), List.nil_append,
          show pos + 1 - min (pos + 1) xs.length = 0 from by omega, List.drop_zero]
    refine ⟨_, by rw [hinsert, hr, some_bind, hmod₃, some_bind], _, ?_, hset ▸ hc₂.set (by omega) y⟩
    rwa [← hset, List.length_set, htake]

theorem insert_end_represents (h : Represents E v xs) (hbig : xs.length + 1 < 2 ^ 48)
    (hr : v.deref r = some x) :
    ∃ v', v.insert E xs.length r = some (v', xs.length) ∧ Represents E v' (xs ++ [x]) := by
  obtain ⟨v', hpush, h'⟩ := emplaceBack_represents h hbig hr
  refine ⟨v', ?_, h'⟩
  rw [insert, h.size, if_pos rfl, hpush, some_bind, h'.size, List.length_append,
    List.length_singleton, Nat.add_sub_cancel]

/-- **`insert`** of an object elsewhere. -/
theorem insert_represents (h : Represents E v xs) (hbig : xs.length + 1 < 2 ^ 48) {pos : ℕ}
    (hpos : pos ≤ xs.length) (x : T) :
    ∃ v', v.insert E pos (.outside x) = some (v', pos) ∧
      Represents E v' (xs.take pos ++ x :: xs.drop pos) := by
  rcases Nat.lt_or_eq_of_le hpos with hlt | rfl
  · obtain ⟨v₁, v₂, cs₂, -, -, -, -, -, hinsert⟩ := insert_eq h hbig hlt
    exact hinsert (.outside x) x rfl
  · obtain ⟨v', hins, h'⟩ := insert_end_represents (r := .outside x) h hbig rfl
    exact ⟨v', hins, by rwa [List.take_length, List.drop_length]⟩

/-! ### Erasing -/

theorem erase_represents (h : Represents E v xs) (hbig : xs.length < 2 ^ 48) {pos : ℕ}
    (hpos : pos < xs.length) :
    ∃ v', v.erase E pos = some (v', pos) ∧ Represents E v' (xs.take pos ++ xs.drop (pos + 1)) := by
  obtain ⟨cs, hrep, hc⟩ := h
  have hcs := hc.length_le
  have hne : xs ≠ [] := by
    rintro rfl
    simp at hpos
  have hcopy := hc.copy (n := xs.length - (pos + 1)) (show pos ≤ pos + 1 by omega) (by omega)
  have hall : (xs.drop (pos + 1)).take (xs.length - (pos + 1)) = xs.drop (pos + 1) :=
    List.take_of_length_le (by rw [List.length_drop])
  rw [hall] at hcopy
  have hzs : overwrite xs pos (xs.drop (pos + 1)) =
      xs.take pos ++ xs.drop (pos + 1) ++ [xs.getLast hne] := by
    rw [overwrite, List.length_drop, show pos + (xs.length - (pos + 1)) = xs.length - 1 from by omega,
      List.drop_length_sub_one hne]
  have hlen : (overwrite xs pos (xs.drop (pos + 1))).length = xs.length := by
    rw [length_overwrite (by omega), List.length_drop]
    omega
  obtain ⟨v₁, cs₁, hmod, hrep₁, hc₁, -, -⟩ := modify_overwrite _ hrep hc
    (f := fun cs => copy cs (pos + 1) pos (xs.length - (pos + 1))) hcopy (by omega)
    (by rw [List.length_drop]; omega)
  have h₁ : Represents E v₁ (overwrite xs pos (xs.drop (pos + 1))) := ⟨cs₁, hlen.symm ▸ hrep₁, hc₁⟩
  obtain ⟨v₂, hpop, h₂⟩ := popBack_represents h₁ (by omega) (by rw [hzs]; simp)
  refine ⟨v₂, by rw [erase, hrep.size, hmod, some_bind, hpop, some_bind], ?_⟩
  rwa [hzs, List.dropLast_concat] at h₂

theorem eraseRange_represents (h : Represents E v xs) (hbig : xs.length < 2 ^ 48) {first last : ℕ}
    (hfirst : first ≤ last) (hlast : last ≤ xs.length) :
    ∃ v', v.eraseRange E first last = some (v', first) ∧
      Represents E v' (xs.take first ++ xs.drop last) := by
  obtain ⟨cs, hrep, hc⟩ := h
  have hcs := hc.length_le
  have hcopy := hc.copy (n := xs.length - last) hfirst (by omega)
  have hall : (xs.drop last).take (xs.length - last) = xs.drop last :=
    List.take_of_length_le (by rw [List.length_drop])
  rw [hall] at hcopy
  have hlen : (overwrite xs first (xs.drop last)).length = xs.length := by
    rw [length_overwrite (by omega), List.length_drop]
    omega
  have hkeep : (overwrite xs first (xs.drop last)).take (xs.length - (last - first)) =
      xs.take first ++ xs.drop last := by
    rw [overwrite]
    exact List.take_left' (by rw [List.length_append, List.length_take, List.length_drop]; omega)
  obtain ⟨v₁, cs₁, hmod, hrep₁, hc₁, -, -⟩ := modify_overwrite _ hrep hc
    (f := fun cs => copy cs last first (xs.length - last)) hcopy (by omega)
    (by rw [List.length_drop]; omega)
  obtain ⟨v₂, hmod₂, h₂⟩ := truncate_represents (k := xs.length - (last - first))
    (n := last - first) hrep₁ hc₁ hlen (by omega) hbig
  rw [hkeep] at h₂
  exact ⟨_, by rw [eraseRange, hrep.size, hmod, some_bind, hmod₂, some_bind], h₂⟩

/-- An inline vector of size 0. -/
theorem setTag_zero_represents (h : v.slots.length = E.kFit) : Represents E (v.setTag 0) [] := by
  have htag : (v.setTag 0).tail 7 = 0 := by
    show Function.update v.tail 7 0 7 = 0
    rw [Function.update_self]
  have hin : (v.setTag 0).isInline = true := by
    rw [isInline_eq_true, htag]
    decide
  refine ⟨v.slots, ⟨?_, ?_, ?_, Nat.zero_le _, h.ge, h, ?_⟩, .nil _⟩
  · exact data_of_inline hin
  · rw [capacity_of_inline hin, h]
  · rw [size_of_inline hin, htag]
    rfl
  · intro hout
    rw [hin] at hout
    contradiction

theorem clear_represents (h : Represents E v xs) :
    ∃ v', v.clear E = some v' ∧ Represents E v' [] := by
  obtain ⟨cs, hrep, hc⟩ := h
  obtain ⟨v₁, hdiscard, hslots⟩ := discardStorage_eq hrep hc
  exact ⟨_, by rw [clear, hdiscard, some_bind], setTag_zero_represents hslots⟩

theorem new_represents (E : ElementType T) (garbage : Fin 8 → UInt8) :
    Represents E (new E garbage) [] :=
  setTag_zero_represents List.length_replicate

/-! ### Copying -/

/-- `push_back` of one element after the other. -/
theorem appendFrom_represents {as : Cells T} (has : Holds as ys) (k n : ℕ)
    (hk : k + n ≤ ys.length) (h : Represents E v xs) (hbig : xs.length + n < 2 ^ 48) :
    ∃ v', appendFrom E as v k n = some v' ∧ Represents E v' (xs ++ (ys.drop k).take n) := by
  induction n generalizing v xs k with
  | zero =>
    refine ⟨v, rfl, ?_⟩
    rwa [List.take_zero, List.append_nil]
  | succ n ih =>
    have hlt : k < ys.length := by omega
    have hread := has.read (List.getElem?_eq_getElem hlt)
    obtain ⟨v₁, hpush, h₁⟩ :=
      emplaceBack_represents (r := .outside ys[k]) (x := ys[k]) h (by omega) rfl
    obtain ⟨v₂, hrest, h₂⟩ := ih (k + 1) (by omega) h₁
      (by rw [List.length_append, List.length_singleton]; omega)
    refine ⟨v₂, by rw [appendFrom, hread, some_bind, hpush, some_bind, hrest], ?_⟩
    rw [take_drop_succ hlt]
    rwa [List.append_assoc, List.singleton_append] at h₂

/-- Overwritten from the front, as far as there is something to overwrite. -/
theorem overwrite_zero (xs ys : List T) (h : xs.length ≤ ys.length) : overwrite xs 0 ys = ys := by
  rw [overwrite, List.drop_of_length_le (by omega), List.take_zero, List.nil_append, List.append_nil]

/-- `operator=` from a larger vector. -/
theorem assignFrom_grow (h : Represents E v xs) (hw : Represents E w ys)
    (hgrow : xs.length < ys.length) (hbig : ys.length < 2 ^ 48) :
    ∃ v', v.assignFrom E w = some v' ∧ Represents E v' ys := by
  obtain ⟨as, hrepw, has⟩ := hw
  obtain ⟨cs, hrep, hc⟩ := h
  obtain ⟨v₁, cs₁, hres, hrep₁, hc₁, hroom⟩ :=
    reserve_rep (n := ys.length) hrep hc (by omega) (by omega)
  have htake : (ys.take xs.length).length = xs.length := by
    rw [List.length_take]
    omega
  have hput : (if xs.length = 0 then some cs₁ else copyFrom as cs₁ 0 0 xs.length) =
      some (overwrite cs₁ 0 ((ys.take xs.length).map some)) := by
    by_cases hzero : xs.length = 0
    · rw [if_pos hzero, hzero, List.take_zero, List.map_nil, overwrite_nil]
    · rw [if_neg hzero]
      exact has.copyFrom hc₁ (by omega) (by omega)
  obtain ⟨v₂, cs₂, hmod, hrep₂, hc₂, -, -⟩ := modify_overwrite _ hrep₁ hc₁
    (f := fun cs => if xs.length = 0 then some cs else copyFrom as cs 0 0 xs.length) hput
    (Nat.zero_le _) (by omega)
  rw [overwrite_zero xs _ htake.ge] at hc₂
  have h₂ : Represents E v₂ (ys.take xs.length) := ⟨cs₂, htake.symm ▸ hrep₂, hc₂⟩
  obtain ⟨v₃, happ, h₃⟩ :=
    appendFrom_represents has xs.length (ys.length - xs.length) (by omega) h₂ (by omega)
  rw [← List.length_drop, List.take_length, List.take_append_drop] at h₃
  refine ⟨v₃, ?_, h₃⟩
  rw [assignFrom, hrep.size, hrepw.size]
  dsimp only
  rw [hrepw.data, some_bind, if_pos hgrow, hres, some_bind, hmod, some_bind, happ]

/-- `operator=` from a vector that is not larger. -/
theorem assignFrom_shrink (h : Represents E v xs) (hw : Represents E w ys)
    (hshrink : ys.length ≤ xs.length) (hbig : xs.length < 2 ^ 48) :
    ∃ v', v.assignFrom E w = some v' ∧ Represents E v' ys := by
  obtain ⟨as, hrepw, has⟩ := hw
  obtain ⟨v₁, herase, h₁⟩ := eraseRange_represents h hbig hshrink le_rfl
  rw [List.drop_length, List.append_nil] at h₁
  obtain ⟨cs₁, hrep₁, hc₁⟩ := h₁
  have htake : (xs.take ys.length).length = ys.length := by
    rw [List.length_take]
    omega
  have hcs₁ := hc₁.length_le
  have hcopy := has.copyFrom hc₁ (n := ys.length) (show 0 + ys.length ≤ _ by omega)
    (show 0 + ys.length ≤ _ by omega)
  rw [List.drop_zero, List.take_length] at hcopy
  obtain ⟨v₂, cs₂, hmod, hrep₂, hc₂, -, -⟩ := modify_overwrite _ hrep₁ hc₁
    (f := fun cs => copyFrom as cs 0 0 ys.length) hcopy (Nat.zero_le _) (by omega)
  rw [overwrite_zero _ ys htake.le] at hc₂
  refine ⟨v₂, ?_, cs₂, htake ▸ hrep₂, hc₂⟩
  rw [assignFrom, h.size, hrepw.size]
  dsimp only
  rw [hrepw.data, some_bind, if_neg (by omega), herase, some_bind]
  exact hmod

/-- **Copy assignment.** -/
theorem assignFrom_represents (h : Represents E v xs) (hw : Represents E w ys)
    (hbig : xs.length < 2 ^ 48) (hbig' : ys.length < 2 ^ 48) :
    ∃ v', v.assignFrom E w = some v' ∧ Represents E v' ys := by
  rcases Nat.lt_or_ge xs.length ys.length with hgrow | hshrink
  · exact assignFrom_grow h hw hgrow hbig'
  · exact assignFrom_shrink h hw hshrink hbig

theorem appendRange_represents (h : Represents E v xs) (ys : List T)
    (hbig : xs.length + ys.length < 2 ^ 48) :
    ∃ v', v.appendRange E ys = some v' ∧ Represents E v' (xs ++ ys) := by
  obtain ⟨cs, hrep, hc⟩ := h
  obtain ⟨v₁, cs₁, hres, hrep₁, hc₁, hroom⟩ :=
    reserve_rep (n := xs.length + ys.length) hrep hc (by omega) (by omega)
  have hys : Holds (ys.map some) ys := List.prefix_rfl
  have hcopy := hys.uninitializedCopy (n := ys.length) (show 0 + ys.length ≤ _ by omega) hroom
  rw [List.drop_zero, List.take_length] at hcopy
  obtain ⟨v₂, cs₂, hmod, hrep₂, hc₂, hlen, -⟩ := modify_overwrite _ hrep₁ hc₁
    (f := fun cs => uninitializedCopy (ys.map some) cs 0 xs.length ys.length) hcopy le_rfl hroom
  rw [overwrite_length_self] at hc₂
  obtain ⟨hrep₃, -⟩ := setSize_rep (m := xs.length + ys.length) hrep₂ (by omega) hbig
  refine ⟨_, by rw [appendRange, hrep.size, hres, some_bind, hmod, some_bind], cs₂, ?_, hc₂⟩
  rwa [List.length_append]

/-! ### The constructors -/

theorem newFill_represents (E : ElementType T) (garbage : Fin 8 → UInt8) (hn : n < 2 ^ 48) (x : T) :
    ∃ v, newFill E garbage n x = some v ∧ Represents E v (List.replicate n x) := by
  obtain ⟨cs, hrep, hc⟩ := new_represents E garbage
  have hlength := hrep.length
  obtain ⟨v₁, cs₁, hroom, hrep₁, -, hlt⟩ := room_rep (p := n > (new E garbage).capacity E) (n := n)
    hrep hc (by simp) (by omega) (show Mover.nop = .move ∨ [] = [] from .inr rfl)
    (fun _ => Nat.zero_le n) fun _ => by omega
  obtain ⟨hrep₂, -⟩ := setSize_rep (m := n) hrep₁ hlt hn
  obtain ⟨v₃, cs₃, hfill, hrep₃, hc₃⟩ := fill_rep (n := n) hrep₂ (.nil cs₁)
    (steady_outside _ [] x) (by rw [List.length_nil]; omega)
  rw [newFill, hroom, some_bind]
  refine ⟨v₃, hfill, cs₃, ?_, hc₃⟩
  rwa [List.length_replicate]

theorem newRange_represents (E : ElementType T) (garbage : Fin 8 → UInt8)
    (hbig : xs.length < 2 ^ 48) :
    ∃ v, newRange E garbage xs = some v ∧ Represents E v xs := by
  obtain ⟨v, happ, h⟩ := appendRange_represents (new_represents E garbage) xs
    (by rw [List.length_nil]; omega)
  exact ⟨v, happ, h⟩

theorem newInput_represents (E : ElementType T) (garbage : Fin 8 → UInt8)
    (hbig : xs.length < 2 ^ 48) :
    ∃ v, newInput E garbage xs = some v ∧ Represents E v xs := by
  obtain ⟨v, happ, h⟩ := appendFrom_represents
    (show Holds (xs.map some) xs from List.prefix_rfl) 0 xs.length (by omega)
    (new_represents E garbage) (by rw [List.length_nil]; omega)
  rw [List.drop_zero, List.take_length, List.nil_append] at h
  exact ⟨v, happ, h⟩

theorem newCopy_represents (garbage : Fin 8 → UInt8) (hw : Represents E w ys)
    (hbig : ys.length < 2 ^ 48) :
    ∃ v, newCopy E garbage w = some v ∧ Represents E v ys :=
  assignFrom_represents (new_represents E garbage) hw (by simp) hbig

/-! ### Swapping -/

/-- The word of a vector has its last eight bytes. -/
theorem ofNat_outoflineWord (v : InlinedVector T) (j : Fin 8) :
    UInt8.ofNat (v.outoflineWord / 2 ^ (8 * j.val)) = v.tail j := by
  have h : ∀ k : Fin 8, (v.tail k).toNat < 256 := fun k => (v.tail k).toNat_lt
  have h0 := h 0
  have h1 := h 1
  have h2 := h 2
  have h3 := h 3
  have h4 := h 4
  have h5 := h 5
  have h6 := h 6
  have h7 := h 7
  apply UInt8.toNat_inj.mp
  rw [UInt8.toNat_ofNat', outoflineWord]
  obtain ⟨j, hj⟩ := j
  rcases j with _ | _ | _ | _ | _ | _ | _ | _ | j
  · show _ / 2 ^ 0 % _ = (v.tail 0).toNat
    omega
  · show _ / 2 ^ 8 % _ = (v.tail 1).toNat
    omega
  · show _ / 2 ^ 16 % _ = (v.tail 2).toNat
    omega
  · show _ / 2 ^ 24 % _ = (v.tail 3).toNat
    omega
  · show _ / 2 ^ 32 % _ = (v.tail 4).toNat
    omega
  · show _ / 2 ^ 40 % _ = (v.tail 5).toNat
    omega
  · show _ / 2 ^ 48 % _ = (v.tail 6).toNat
    omega
  · show _ / 2 ^ 56 % _ = (v.tail 7).toNat
    omega
  · omega

/-- The encoding of another vector, taken over. -/
theorem takeOver_represents (ha : Represents E v xs) (hb : Represents E w ys) {b : Block T}
    (hout : w.isInline = false) (hpointer : w.pointer = some b) :
    Represents E ((v.setOutoflinePointer E b).setOutoflineWord E w.outoflineWord) ys := by
  obtain ⟨cs, hrep, -⟩ := ha
  obtain ⟨ds, hrep', hd⟩ := hb
  have htail : ((v.setOutoflinePointer E b).setOutoflineWord E w.outoflineWord).tail = w.tail :=
    funext (ofNat_outoflineWord w)
  have hin : ((v.setOutoflinePointer E b).setOutoflineWord E w.outoflineWord).isInline = false := by
    rw [isInline, htail]
    exact hout
  have hword : ((v.setOutoflinePointer E b).setOutoflineWord E w.outoflineWord).outoflineWord =
      w.outoflineWord := by
    rw [outoflineWord, htail, outoflineWord]
  refine ⟨ds, ⟨?_, ?_, ?_, hrep'.size_le, hrep'.fit_le, ?_, ?_⟩, hd⟩
  · rw [← hrep'.data, data_of_outline hout, data_of_outline hin, hpointer]
    rfl
  · rw [hrep'.length, capacity_of_outline hout, capacity_of_outline hin, htail]
  · rw [← hrep'.size, size_of_outline hout, size_of_outline hin, hword]
  · exact (length_endSlots _ _ _).trans ((length_endSlots _ _ _).trans hrep.slots_length)
  · intro _
    rw [htail]
    exact hrep'.lg_lt hout

/-- Two vectors, the larger first: the elements they both have change places, and the others go over. -/
theorem swapElements_represents (ha : Represents E v xs) (hb : Represents E w ys)
    (hle : ys.length ≤ xs.length) (hbig : xs.length < 2 ^ 48) :
    ∃ a b, swapElements E v w = some (a, b) ∧ Represents E a ys ∧ Represents E b xs := by
  obtain ⟨cs, hrep, hc⟩ := ha
  obtain ⟨ds, hrepw, hd⟩ := hb
  have hcs := hc.length_le
  have hlength := hrepw.length
  obtain ⟨w₁, ds₁, hroom, hrep₁, hd₁, hlt⟩ := room_rep (p := w.capacity E < xs.length)
    (n := xs.length) hrepw hd (by omega) (by omega) (.inl rfl) (fun _ => hle) fun _ => by omega
  -- the elements both have
  have hswap := hc.swapRanges hd₁ (i := 0) (n := ys.length) (by omega) (by omega)
  rw [List.drop_zero, List.drop_zero, List.take_length] at hswap
  have hca := hc.overwritten (Nat.zero_le _) ys
  have hdb := hd₁.overwritten (Nat.zero_le _) (xs.take ys.length)
  rw [show overwrite xs 0 ys = ys ++ xs.drop ys.length by simp [overwrite]] at hca
  rw [overwrite_zero ys _ (by rw [List.length_take]; omega)] at hdb
  -- the others
  have htaken : (xs.take ys.length).length = ys.length := List.length_take_of_le hle
  have hlenb : (overwrite ds₁ 0 ((xs.take ys.length).map some)).length = ds₁.length := by
    rw [length_overwrite (Nat.zero_le _), List.length_map]
    omega
  have hcopy := hca.uninitializedCopy
    (show ys.length + (xs.length - ys.length) ≤ _ by rw [List.length_append, List.length_drop])
    (show ys.length + _ ≤ (overwrite ds₁ 0 ((xs.take ys.length).map some)).length by omega)
  rw [List.drop_left, List.take_of_length_le (show (xs.drop ys.length).length ≤ _ from
    List.length_drop.le)] at hcopy
  have hall := hdb.overwritten htaken.ge (xs.drop ys.length)
  have hsame : overwrite (xs.take ys.length) ys.length (xs.drop ys.length) = xs := by
    have hconcat := overwrite_length_self (xs.take ys.length) (xs.drop ys.length)
    rwa [htaken, List.take_append_drop] at hconcat
  rw [hsame] at hall
  obtain ⟨cs', hdestroy, hlena, hrest⟩ := destroyObjects_holds E (k := ys.length)
    (n := xs.length - ys.length) hca (by rw [List.length_append, List.length_drop])
  rw [List.take_left] at hrest
  have hsize := hrep.size_le
  have hlen : cs'.length = cs.length := by
    rw [hlena, length_overwrite (Nat.zero_le _), List.length_map]
    omega
  obtain ⟨hstore, -⟩ := store_rep hrep hlen
  obtain ⟨hsmaller, -⟩ := setSize_rep (m := ys.length) hstore (by omega) (by omega)
  have hlen' : (overwrite (overwrite ds₁ 0 ((xs.take ys.length).map some)) ys.length
      ((xs.drop ys.length).map some)).length = ds₁.length := by
    rw [length_overwrite (by omega), List.length_map, List.length_drop]
    omega
  obtain ⟨hstore', -⟩ := store_rep hrep₁ hlen'
  obtain ⟨hlarger, -⟩ := setSize_rep (m := xs.length) hstore' (by omega) hbig
  refine ⟨_, _, ?_, ⟨cs', hsmaller, hrest⟩, ⟨_, hlarger, hall⟩⟩
  rw [swapElements, hrep.size, hrepw.size]
  dsimp only
  rw [hroom, some_bind, hrep.data, some_bind, hrep₁.data, some_bind, hswap, some_bind]
  dsimp only
  rw [hcopy, some_bind, hdestroy, some_bind]

/-- **`swap`**, whichever of the two are inline. -/
theorem swap_represents (ha : Represents E v xs) (hb : Represents E w ys)
    (hbig : xs.length < 2 ^ 48) (hbig' : ys.length < 2 ^ 48) :
    ∃ a b, swap E v w = some (a, b) ∧ Represents E a ys ∧ Represents E b xs := by
  by_cases hout : v.isInline = false ∧ w.isInline = false
  · obtain ⟨hv, hw⟩ := hout
    obtain ⟨cs, hrep, -⟩ := id ha
    obtain ⟨ds, hrep', -⟩ := id hb
    have hdata := hrep.data
    have hdata' := hrep'.data
    rw [data_of_outline hv, Option.map_eq_some_iff] at hdata
    rw [data_of_outline hw, Option.map_eq_some_iff] at hdata'
    obtain ⟨a, hpointer, -⟩ := hdata
    obtain ⟨b, hpointer', -⟩ := hdata'
    refine ⟨_, _, ?_, takeOver_represents ha hb hw hpointer', takeOver_represents hb ha hv hpointer⟩
    rw [swap, hv, hw, hpointer, hpointer']
    rfl
  · have hnot : (!v.isInline && !w.isInline) = false := by
      cases hv : v.isInline <;> cases hw : w.isInline <;> simp_all
    rw [swap, hnot, if_neg Bool.false_ne_true, ha.size, hb.size]
    by_cases hlt : xs.length < ys.length
    · obtain ⟨b, a, hswap, hb', ha'⟩ := swapElements_represents hb ha (by omega) hbig'
      exact ⟨a, b, by rw [if_pos hlt, hswap]; rfl, ha', hb'⟩
    · rw [if_neg hlt]
      exact swapElements_represents ha hb (by omega) hbig

end LearnNetlib.Gtl.InlinedVector
