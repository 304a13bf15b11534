import LearnNetlib.Thread.DeviceThreadPool
import Mathlib.Algebra.Order.BigOperators.Group.List
import Mathlib.Algebra.Order.Floor.Ring
import Mathlib.Data.Rat.Floor
import Mathlib.Tactic.Linarith

/-!
# The blocks of `ParallelFor`

The number of blocks comes from a division, the number of `Notify` calls from a recursion.  Both are
here, and they agree.

* `divup_le_iff`, `divup_eq_ceil` — `divup` is the quotient rounded up;
* `coarsen_turn` — a turn of the coarsening loop: it keeps `block_count = ⌈n / block_size⌉`, no `assert`
  of it fails, and the count it tries goes down;
* `handleNext_measure` — whatever adds up over the halves of a range is kept by the recursion;
* **`blocks_partition`** — the two together, in any order of the scheduled halves.
-/

namespace LearnNetlib.DeviceThreadPool

open LearnNetlib.Loops LearnNetlib.CostModel

/-! ### The quotient rounded up -/

theorem divup_le_iff {x y k : ℤ} (hx : 0 ≤ x) (hy : 1 ≤ y) : divup x y ≤ k ↔ x ≤ k * y := by
  rw [divup, Int.tdiv_eq_ediv_of_nonneg (by omega), ← Int.lt_add_one_iff,
    Int.ediv_lt_iff_lt_mul (by omega), Int.add_mul]
  omega

theorem lt_divup_iff {x y k : ℤ} (hx : 0 ≤ x) (hy : 1 ≤ y) : k < divup x y ↔ k * y < x := by
  rw [← not_le, divup_le_iff hx hy, not_le]

theorem le_divup_mul {x y : ℤ} (hx : 0 ≤ x) (hy : 1 ≤ y) : x ≤ divup x y * y :=
  (divup_le_iff hx hy).mp le_rfl

theorem divup_eq_ceil {x y : ℤ} (hx : 0 ≤ x) (hy : 1 ≤ y) : divup x y = ⌈(x / y : ℚ)⌉ := by
  have hpos : (0 : ℚ) < y := by exact_mod_cast hy
  refine eq_of_forall_ge_iff fun k => ?_
  rw [divup_le_iff hx hy, Int.ceil_le, div_le_iff₀ hpos]
  exact_mod_cast Iff.rfl

theorem divup_pos {x y : ℤ} (hx : 1 ≤ x) (hy : 1 ≤ y) : 1 ≤ divup x y := by
  have hlt : 0 < divup x y := (lt_divup_iff (by omega) hy).mpr (by omega)
  omega

theorem divup_le_self {x y : ℤ} (hx : 1 ≤ x) (hy : 1 ≤ y) : divup x y ≤ x :=
  (divup_le_iff (by omega) hy).mpr (le_mul_of_one_le_right (by omega) hy)

theorem divup_eq_one {x y : ℤ} (hx : 1 ≤ x) (hxy : x ≤ y) : divup x y = 1 := by
  have hle := (divup_le_iff (k := 1) (by omega) (by omega)).mpr (by omega : x ≤ 1 * y)
  have hpos := divup_pos hx (by omega : 1 ≤ y)
  omega

/-- Whole blocks in front add up. -/
theorem divup_add_mul {x y k : ℤ} (hx : 0 ≤ x) (hk : 0 ≤ k) (hy : 1 ≤ y) :
    divup (k * y + x) y = k + divup x y := by
  refine eq_of_forall_ge_iff fun c => ?_
  have hky : 0 ≤ k * y := Int.mul_nonneg hk (by omega)
  have hsplit : (c - k) * y = c * y - k * y := Int.sub_mul c k y
  have hrest : k + divup x y ≤ c ↔ divup x y ≤ c - k := by omega
  rw [divup_le_iff (by omega) hy, hrest, divup_le_iff hx hy]
  omega

theorem divup_mul {y k : ℤ} (hk : 0 ≤ k) (hy : 1 ≤ y) : divup (k * y) y = k := by
  refine eq_of_forall_ge_iff fun c => ?_
  rw [divup_le_iff (Int.mul_nonneg hk (by omega)) hy]
  exact mul_le_mul_iff_left₀ (by omega)

/-! ### The coarsening loop -/

/-- What the loop keeps. -/
structure Blocks.Fits {D : Type} (n : ℤ) (b : Blocks D) : Prop where
  pos : 1 ≤ b.blockSize
  le : b.blockSize ≤ n
  count : b.blockCount = divup n b.blockSize
  prev : b.prevBlockCount ≤ n

/-- A `block_align` that never gives less than it is given. -/
def Enlarges (blockAlign : Option (ℤ → ℤ)) : Prop := ∀ align ∈ blockAlign, ∀ x, x ≤ align x

theorem alignBlock_ok {n x : ℤ} {align : ℤ → ℤ} (halign : x ≤ align x) :
    alignBlock n (some align) x = .ok (min n (align x)) := if_pos halign

section

variable {D : Type} (ops : Doubles D) (threads : ℤ) {n : ℤ} {blockAlign : Option (ℤ → ℤ)}

/-- The rest of a turn, once it has its block size. -/
def coarsenTo (n maxBlockSize : ℤ) (b : Blocks D) (coarserBlockSize : ℤ) :
    Except Failure (Blocks D ⊕ Blocks D) :=
  if coarserBlockSize > maxBlockSize then .ok (.inr b)
  else if divup n coarserBlockSize < b.prevBlockCount then
    if ops.le b.maxEfficiency (ops.add (efficiency ops threads (divup n coarserBlockSize))
        (ops.div (ops.ofInt 1) (ops.ofInt 100))) then
      .ok (.inl ⟨divup n coarserBlockSize, coarserBlockSize, divup n coarserBlockSize,
        if ops.lt b.maxEfficiency (efficiency ops threads (divup n coarserBlockSize)) then
          efficiency ops threads (divup n coarserBlockSize)
        else b.maxEfficiency⟩)
    else .ok (.inl { b with prevBlockCount := divup n coarserBlockSize })
  else .error .assertFailed

/-- A turn tries a size that is no less than asked for. -/
theorem coarsen_eq_coarsenTo (halign : Enlarges blockAlign) (maxBlockSize : ℤ) {b : Blocks D}
    (hprev : 1 < b.prevBlockCount) (hn : 1 ≤ n) :
    ∃ y, coarsen ops threads n blockAlign maxBlockSize b = coarsenTo ops threads n maxBlockSize b y ∧
      divup n (b.prevBlockCount - 1) ≤ y ∧ y ≤ n := by
  have hle : divup n (b.prevBlockCount - 1) ≤ n := divup_le_self hn (by omega)
  cases blockAlign with
  | none => exact ⟨_, if_pos hprev, le_rfl, hle⟩
  | some align =>
    have henlarges := halign align rfl (divup n (b.prevBlockCount - 1))
    refine ⟨_, ?_, le_min hle henlarges, min_le_left n _⟩
    rw [coarsen, if_pos hprev]
    simp only [Option.isSome_some, if_true, alignBlock_ok henlarges]
    rfl

/-- **A turn of the coarsening loop.** -/
theorem coarsen_turn (halign : Enlarges blockAlign) (hn : 1 ≤ n) (maxBlockSize : ℤ) (b : Blocks D)
    (hb : b.Fits n) :
    (∃ b', coarsen ops threads n blockAlign maxBlockSize b = .ok (.inl b') ∧ b'.Fits n ∧
        b'.prevBlockCount.toNat < b.prevBlockCount.toNat) ∨
      ∃ b', coarsen ops threads n blockAlign maxBlockSize b = .ok (.inr b') ∧ b'.Fits n := by
  by_cases hprev : 1 < b.prevBlockCount
  · obtain ⟨y, hres, hxy, hyn⟩ := coarsen_eq_coarsenTo ops threads halign maxBlockSize hprev hn
    have hx : 1 ≤ divup n (b.prevBlockCount - 1) := divup_pos hn (by omega)
    -- the blocks get larger, so there are fewer of them
    have hfewer : divup n y ≤ b.prevBlockCount - 1 := by
      rw [divup_le_iff (by omega) (by omega), Int.mul_comm]
      calc n ≤ divup n (b.prevBlockCount - 1) * (b.prevBlockCount - 1) :=
            le_divup_mul (by omega) (by omega)
        _ ≤ y * (b.prevBlockCount - 1) := Int.mul_le_mul_of_nonneg_right hxy (by omega)
    have hle := hb.prev
    rw [hres, coarsenTo, if_pos (show divup n y < b.prevBlockCount by omega)]
    by_cases hmax : y > maxBlockSize
    · exact .inr ⟨b, if_pos hmax, hb⟩
    · rw [if_neg hmax]
      split
      · exact .inl ⟨_, rfl, ⟨hx.trans hxy, hyn, rfl, by dsimp only; omega⟩, by dsimp only; omega⟩
      · exact .inl ⟨_, rfl, ⟨hb.pos, hb.le, hb.count, by dsimp only; omega⟩, by dsimp only; omega⟩
  · exact .inr ⟨b, if_neg hprev, hb⟩

/-- Every head of the loop. -/
theorem coarsen_heads (halign : Enlarges blockAlign) (hn : 1 ≤ n) (maxBlockSize : ℤ) {b : Blocks D}
    (hb : b.Fits n) (fuel : ℕ) :
    ∀ h ∈ heads (coarsen ops threads n blockAlign maxBlockSize) fuel b, h.Fits n := by
  refine heads_invariant (fun b b' hb hgo => ?_) hb
  rcases coarsen_turn ops threads halign hn maxBlockSize b hb with
    ⟨b₁, hres, hb₁, -⟩ | ⟨b₁, hres, -⟩
  · rw [hres] at hgo
    cases hgo
    exact hb₁
  · rw [hres] at hgo
    cases hgo

/-- The loop as a whole. -/
theorem coarsen_total (halign : Enlarges blockAlign) (hn : 1 ≤ n) (maxBlockSize : ℤ) {b : Blocks D}
    (hb : b.Fits n) {fuel : ℕ} (hfuel : n < fuel) :
    ∃ b', loop .stillRunning (coarsen ops threads n blockAlign maxBlockSize) fuel b = .ok b' ∧
      b'.Fits n := by
  have hle := hb.prev
  exact loop_total (Blocks.Fits n) (Blocks.Fits n) (fun b => b.prevBlockCount.toNat)
    (coarsen_turn ops threads halign hn maxBlockSize) hb (by omega)

end

/-! ### The recursion -/

/-- A range of one block or less has one leaf, and the leaves of a longer one are those of its halves;
these are not empty. -/
theorem handleRange_split {blockSize : ℤ} (hsize : 1 ≤ blockSize) {r upper lower : Range}
    (h : handleRange blockSize r = some (upper, lower)) :
    ∃ mid, upper = (mid, r.2) ∧ lower = (r.1, mid) ∧ r.1 < mid ∧ mid < r.2 ∧
      divup (r.2 - r.1) blockSize
        = divup (upper.2 - upper.1) blockSize + divup (lower.2 - lower.1) blockSize := by
  rw [handleRange] at h
  split_ifs at h with hshort
  obtain ⟨rfl, rfl⟩ : (_, _) = upper ∧ (_, _) = lower := by
    simpa only [Option.some.injEq, Prod.mk.injEq] using h
  have hhalf : (r.2 - r.1).tdiv 2 = (r.2 - r.1) / 2 := Int.tdiv_eq_ediv_of_nonneg (by omega)
  rw [hhalf]
  set half := (r.2 - r.1) / 2 with hdef
  set k := divup half blockSize with hk
  have hkpos : 1 ≤ k := divup_pos (by omega) hsize
  -- the front half is no whole range: one block if that is enough, at most `half + blockSize - 1` else
  have hfront : k * blockSize < r.2 - r.1 := by
    by_cases hone : half ≤ blockSize
    · rw [hk, divup_eq_one (by omega) hone]
      omega
    · have hlt := (lt_divup_iff (x := half) (k := k - 1) (by omega) hsize).mp (by omega)
      rw [Int.sub_mul] at hlt
      omega
  have hmid : 1 ≤ k * blockSize := by
    calc (1 : ℤ) ≤ blockSize := hsize
      _ ≤ k * blockSize := le_mul_of_one_le_left (by omega) hkpos
  refine ⟨r.1 + k * blockSize, rfl, rfl, by omega, by omega, ?_⟩
  have hfrontLeaves : r.1 + k * blockSize - r.1 = k * blockSize := by omega
  have hsum : r.2 - r.1 = k * blockSize + (r.2 - (r.1 + k * blockSize)) := by omega
  calc divup (r.2 - r.1) blockSize
      = divup (k * blockSize + (r.2 - (r.1 + k * blockSize))) blockSize := by rw [← hsum]
    _ = k + divup (r.2 - (r.1 + k * blockSize)) blockSize :=
        divup_add_mul (by omega) (by omega) hsize
    _ = _ := by
        dsimp only
        rw [hfrontLeaves, divup_mul (by omega) hsize, Int.add_comm]

/-- One turn: nothing is left, or some pending range is handled. -/
theorem handleNext_cases (order : Work → ℕ) (blockSize : ℤ) (w : Work) :
    (w.pending = [] ∧ handleNext order blockSize w = .ok (.inr w.calls)) ∨
      ∃ r rest, w.pending.Perm (r :: rest) ∧
        ((handleRange blockSize r = none ∧
            handleNext order blockSize w = .ok (.inl ⟨rest, w.calls ++ [r]⟩)) ∨
          ∃ upper lower, handleRange blockSize r = some (upper, lower) ∧
            handleNext order blockSize w = .ok (.inl ⟨rest ++ [upper, lower], w.calls⟩)) := by
  rw [handleNext]
  rcases Nat.eq_zero_or_pos w.pending.length with hnil | hpos
  · have hpending : w.pending = [] := List.eq_nil_of_length_eq_zero hnil
    exact .inl ⟨hpending, by simp [hpending]⟩
  · have hi : order w % w.pending.length < w.pending.length := Nat.mod_lt _ hpos
    refine .inr ⟨_, _, (List.getElem_cons_eraseIdx_perm hi).symm, ?_⟩
    simp only [List.getElem?_eq_getElem hi]
    cases hres : handleRange blockSize w.pending[order w % w.pending.length] with
    | none => exact .inl ⟨rfl, rfl⟩
    | some halves => exact .inr ⟨halves.1, halves.2, rfl, rfl⟩

/-- What all ranges amount to, handled or not. -/
def Work.measure (m : Range → ℤ) (w : Work) : ℤ := (w.pending.map m).sum + (w.calls.map m).sum

/-- A range amounts to what its halves amount to. -/
def AddsUp (blockSize : ℤ) (m : Range → ℤ) : Prop :=
  ∀ r upper lower, handleRange blockSize r = some (upper, lower) → m r = m upper + m lower

/-- **The recursion loses nothing and doubles nothing.** -/
theorem handleNext_measure {blockSize : ℤ} {m : Range → ℤ} (hm : AddsUp blockSize m)
    {order : Work → ℕ} {w w' : Work} (h : handleNext order blockSize w = .ok (.inl w')) :
    w'.measure m = w.measure m := by
  rcases handleNext_cases order blockSize w with
    ⟨-, hres⟩ | ⟨r, rest, hperm, ⟨-, hres⟩ | ⟨upper, lower, hsplit, hres⟩⟩
  · rw [hres] at h
    cases h
  · rw [hres] at h
    cases h
    simp only [Work.measure, (hperm.map m).sum_eq, List.map_cons, List.sum_cons, List.map_append,
      List.sum_append, List.map_nil, List.sum_nil]
    omega
  · rw [hres] at h
    cases h
    have hadd := hm r upper lower hsplit
    simp only [Work.measure, (hperm.map m).sum_eq, List.map_cons, List.sum_cons, List.map_append,
      List.sum_append, List.map_nil, List.sum_nil]
    omega

/-- The leaves below a range. -/
def leaves (blockSize : ℤ) (r : Range) : ℤ := divup (r.2 - r.1) blockSize

theorem leaves_addsUp {blockSize : ℤ} (hsize : 1 ≤ blockSize) :
    AddsUp blockSize (leaves blockSize) := by
  intro r upper lower h
  obtain ⟨mid, -, -, -, -, hleaves⟩ := handleRange_split hsize h
  exact hleaves

/-- Whether an index is in a range. -/
def covers (i : ℤ) (r : Range) : ℤ := if r.1 ≤ i ∧ i < r.2 then 1 else 0

theorem covers_addsUp {blockSize : ℤ} (hsize : 1 ≤ blockSize) (i : ℤ) :
    AddsUp blockSize (covers i) := by
  intro r upper lower h
  obtain ⟨mid, rfl, rfl, hlo, hhi, -⟩ := handleRange_split hsize h
  simp only [covers]
  split_ifs <;> omega

theorem sum_covers (i : ℤ) (calls : List Range) :
    (calls.map (covers i)).sum = calls.countP fun r => r.1 ≤ i ∧ i < r.2 := by
  induction calls with
  | nil => rfl
  | cons r calls ih =>
    rw [List.map_cons, List.sum_cons, ih, List.countP_cons, covers]
    simp only [decide_eq_true_eq]
    split_ifs <;> push_cast <;> omega

/-- What the recursion keeps. -/
structure Work.Fits (n blockSize : ℤ) (w : Work) : Prop where
  bounds : ∀ r ∈ w.pending ++ w.calls, 0 ≤ r.1 ∧ r.1 < r.2 ∧ r.2 ≤ n
  short : ∀ r ∈ w.calls, r.2 - r.1 ≤ blockSize
  leaves : w.measure (leaves blockSize) = divup n blockSize
  covers : ∀ i, 0 ≤ i → i < n → w.measure (covers i) = 1

section

variable {n blockSize : ℤ}

theorem Work.fits_init (hn : 1 ≤ n) : Work.Fits n blockSize ⟨[(0, n)], []⟩ := by
  refine ⟨fun r hr => ?_, fun r hr => absurd hr List.not_mem_nil, ?_, fun i hi hin => ?_⟩
  · obtain rfl : r = (0, n) := by simpa using hr
    exact ⟨le_rfl, by dsimp only; omega, le_rfl⟩
  · simp [Work.measure, DeviceThreadPool.leaves]
  · simp [Work.measure, DeviceThreadPool.covers, hi, hin]

/-- Each of the calls so far is one leaf, each pending range at least one. -/
theorem Work.Fits.counts {w : Work} (hw : w.Fits n blockSize) (hsize : 1 ≤ blockSize) :
    ((w.calls.map (DeviceThreadPool.leaves blockSize)).sum = w.calls.length) ∧
      (w.pending.length : ℤ) ≤ (w.pending.map (DeviceThreadPool.leaves blockSize)).sum := by
  constructor
  · have hone : ∀ k ∈ w.calls.map (DeviceThreadPool.leaves blockSize), k = 1 := by
      intro k hk
      obtain ⟨r, hr, rfl⟩ := List.mem_map.mp hk
      have hbounds := hw.bounds r (List.mem_append_right _ hr)
      exact divup_eq_one (by omega) (hw.short r hr)
    rw [List.sum_eq_card_nsmul _ _ hone, List.length_map]
    simp
  · have hpos : ∀ k ∈ w.pending.map (DeviceThreadPool.leaves blockSize), 1 ≤ k := by
      intro k hk
      obtain ⟨r, hr, rfl⟩ := List.mem_map.mp hk
      have hbounds := hw.bounds r (List.mem_append_left _ hr)
      exact divup_pos (by omega) hsize
    have hle := List.card_nsmul_le_sum _ 1 hpos
    rw [List.length_map] at hle
    simpa using hle

/-- **A turn of the recursion.** -/
theorem handleNext_turn (hsize : 1 ≤ blockSize) (order : Work → ℕ) (w : Work)
    (hw : w.Fits n blockSize) :
    (∃ w', handleNext order blockSize w = .ok (.inl w') ∧ w'.Fits n blockSize ∧
        (2 * (divup n blockSize - w'.calls.length) - w'.pending.length).toNat
          < (2 * (divup n blockSize - w.calls.length) - w.pending.length).toNat) ∨
      ∃ calls, handleNext order blockSize w = .ok (.inr calls) ∧
        Work.Fits n blockSize ⟨[], calls⟩ := by
  obtain ⟨hcalls, hpending⟩ := hw.counts hsize
  have htotal := hw.leaves
  rw [Work.measure] at htotal
  rcases handleNext_cases order blockSize w with
    ⟨hnil, hres⟩ | ⟨r, rest, hperm, ⟨hleaf, hres⟩ | ⟨upper, lower, hsplit, hres⟩⟩
  · obtain ⟨pending, calls⟩ := w
    obtain rfl : pending = [] := hnil
    exact .inr ⟨calls, hres, hw⟩
  all_goals
    have hlength : w.pending.length = rest.length + 1 := by rw [hperm.length_eq, List.length_cons]
    have hmem : ∀ x, x = r ∨ x ∈ rest → x ∈ w.pending := fun x hx =>
      hperm.mem_iff.mpr (List.mem_cons.mpr hx)
    have hmeasure : ∀ m, AddsUp blockSize m → _ := fun m hm => handleNext_measure hm hres
  · refine .inl ⟨_, hres, ⟨fun x hx => ?_, fun x hx => ?_, ?_, fun i hi hin => ?_⟩, ?_⟩
    · refine hw.bounds x ?_
      simp only [List.mem_append, List.mem_singleton] at hx ⊢
      rcases hx with hx | hx | rfl
      · exact .inl (hmem x (.inr hx))
      · exact .inr hx
      · exact .inl (hmem x (.inl rfl))
    · rcases List.mem_append.mp hx with hx | hx
      · exact hw.short x hx
      · rw [List.mem_singleton.mp hx]
        rw [handleRange] at hleaf
        split_ifs at hleaf with hshort
        exact hshort
    · rw [hmeasure _ (leaves_addsUp hsize)]
      exact hw.leaves
    · rw [hmeasure _ (covers_addsUp hsize i)]
      exact hw.covers i hi hin
    · simp only [List.length_append, List.length_singleton]
      omega
  · obtain ⟨mid, rfl, rfl, hlo, hhi, -⟩ := handleRange_split hsize hsplit
    have hr := hw.bounds r (List.mem_append_left _ (hmem r (.inl rfl)))
    refine .inl ⟨_, hres, ⟨fun x hx => ?_, hw.short, ?_, fun i hi hin => ?_⟩, ?_⟩
    · simp only [List.mem_append, List.mem_cons, List.not_mem_nil, or_false] at hx
      rcases hx with (hx | rfl | rfl) | hx
      · exact hw.bounds x (List.mem_append_left _ (hmem x (.inr hx)))
      · exact ⟨by dsimp only; omega, hhi, hr.2.2⟩
      · exact ⟨hr.1, hlo, by dsimp only; omega⟩
      · exact hw.bounds x (List.mem_append_right _ hx)
    · rw [hmeasure _ (leaves_addsUp hsize)]
      exact hw.leaves
    · rw [hmeasure _ (covers_addsUp hsize i)]
      exact hw.covers i hi hin
    · simp only [List.length_append, List.length_cons, List.length_nil]
      omega

/-- The recursion as a whole. -/
theorem handleNext_total (hn : 1 ≤ n) (hsize : 1 ≤ blockSize) (order : Work → ℕ) {fuel : ℕ}
    (hfuel : 2 * n < fuel) :
    ∃ calls, loop .stillRunning (handleNext order blockSize) fuel ⟨[(0, n)], []⟩ = .ok calls ∧
      Work.Fits n blockSize ⟨[], calls⟩ := by
  have hle : divup n blockSize ≤ n := divup_le_self hn hsize
  refine loop_total (Work.Fits n blockSize) (fun calls => Work.Fits n blockSize ⟨[], calls⟩)
    (fun w => (2 * (divup n blockSize - w.calls.length) - w.pending.length).toNat)
    (handleNext_turn hsize order) (Work.fits_init hn) ?_
  dsimp only [List.length_nil, List.length_singleton]
  omega

/-- The calls once nothing is pending. -/
theorem Work.Fits.partitions {calls : List Range} (hw : Work.Fits n blockSize ⟨[], calls⟩) :
    Partitions n calls := by
  refine ⟨fun r hr => ?_, fun i hi hin => ?_⟩
  · have hbounds := hw.bounds r (List.mem_append_right _ hr)
    exact ⟨hbounds.1, hbounds.2.1.le, hbounds.2.2⟩
  · have hcovers := hw.covers i hi hin
    simp only [Work.measure, List.map_nil, List.sum_nil, zero_add, sum_covers] at hcovers
    exact_mod_cast hcovers

theorem Work.Fits.length_eq {calls : List Range} (hw : Work.Fits n blockSize ⟨[], calls⟩)
    (hsize : 1 ≤ blockSize) : (calls.length : ℤ) = divup n blockSize := by
  have hleaves := hw.leaves
  simp only [Work.measure, List.map_nil, List.sum_nil, zero_add] at hleaves
  rw [← hleaves]
  exact (hw.counts hsize).1.symm

end

/-! ### Both together -/

section

variable {D : Type} (ops : Doubles D) (threads : ℤ) {n blockSize : ℤ}
  {blockAlign : Option (ℤ → ℤ)}

/-- The loop's variables when it is entered. -/
def Blocks.start (n blockSize : ℤ) : Blocks D :=
  ⟨divup n blockSize, blockSize, divup n blockSize, efficiency ops threads (divup n blockSize)⟩

theorem Blocks.fits_start (hsize : 1 ≤ blockSize) (hle : blockSize ≤ n) :
    (Blocks.start ops threads n blockSize).Fits n :=
  ⟨hsize, hle, rfl, divup_le_self (hsize.trans hle) hsize⟩

/-- **The blocks of `ParallelFor`**, from any initial block size on, for any maximum, any `block_align`
that never gives less than it is given, and whatever the operations on `double` give: the coarsening loop
leaves, with `block_count = ⌈n / block_size⌉` at each of its heads and in the end; and in any order of the
scheduled halves `HandleRange(0, n)` makes as many calls of `f`, which partition `[0, n)` and are neither
empty nor longer than a block, so that `barrier.Wait()` returns. -/
theorem blocks_partition (halign : Enlarges blockAlign) (hsize : 1 ≤ blockSize) (hle : blockSize ≤ n)
    (maxBlockSize : ℤ) (order : Work → ℕ) {fuel : ℕ} (hfuel : 2 * n < fuel) :
    (∀ h ∈ heads (coarsen ops threads n blockAlign maxBlockSize) fuel
        (Blocks.start ops threads n blockSize),
      h.blockCount = ⌈(n / h.blockSize : ℚ)⌉ ∧ 1 ≤ h.blockSize ∧ h.blockSize ≤ n) ∧
    ∃ b, loop .stillRunning (coarsen ops threads n blockAlign maxBlockSize) fuel
        (Blocks.start ops threads n blockSize) = .ok b ∧
      (b.blockCount = ⌈(n / b.blockSize : ℚ)⌉ ∧ 1 ≤ b.blockSize ∧ b.blockSize ≤ n) ∧
      ∃ calls, loop .stillRunning (handleNext order b.blockSize) fuel ⟨[(0, n)], []⟩ = .ok calls ∧
        (calls.length : ℤ) = b.blockCount ∧
        (∀ r ∈ calls, r.1 < r.2 ∧ r.2 - r.1 ≤ b.blockSize) ∧
        Partitions n calls ∧
        awaitCalls b.blockCount calls = .ok calls := by
  have hn : 1 ≤ n := hsize.trans hle
  have hstart := Blocks.fits_start ops threads hsize hle
  have hceil : ∀ b : Blocks D, b.Fits n →
      b.blockCount = ⌈(n / b.blockSize : ℚ)⌉ ∧ 1 ≤ b.blockSize ∧ b.blockSize ≤ n := fun b hb =>
    ⟨hb.count.trans (divup_eq_ceil (by omega) hb.pos), hb.pos, hb.le⟩
  refine ⟨fun h hh => hceil h (coarsen_heads ops threads halign hn maxBlockSize hstart fuel h hh), ?_⟩
  have hturns : n < fuel := by omega
  obtain ⟨b, hloop, hb⟩ := coarsen_total ops threads halign hn maxBlockSize hstart hturns
  obtain ⟨calls, hcalls, hw⟩ := handleNext_total hn hb.pos order hfuel
  have hlength : (calls.length : ℤ) = b.blockCount := (hw.length_eq hb.pos).trans hb.count.symm
  refine ⟨b, hloop, hceil b hb, calls, hcalls, hlength, fun r hr => ?_, hw.partitions,
    if_pos hlength⟩
  exact ⟨(hw.bounds r (List.mem_append_right _ hr)).2.1, hw.short r hr⟩

/-- Ten indices, blocks of 3 rounded up to even sizes, and the front half of the pending ranges last. -/
theorem blocks_partition_ten :
    (∀ h ∈ heads (coarsen Doubles.exact 4 10 (some fun x => x + x % 2) 5) 21
        (Blocks.start Doubles.exact 4 10 3),
      h.blockCount = ⌈((10 : ℤ) / h.blockSize : ℚ)⌉ ∧ 1 ≤ h.blockSize ∧ h.blockSize ≤ 10) ∧
    ∃ b, loop .stillRunning (coarsen Doubles.exact 4 10 (some fun x => x + x % 2) 5) 21
        (Blocks.start Doubles.exact 4 10 3) = .ok b ∧
      (b.blockCount = ⌈((10 : ℤ) / b.blockSize : ℚ)⌉ ∧ 1 ≤ b.blockSize ∧ b.blockSize ≤ 10) ∧
      ∃ calls, loop .stillRunning (handleNext (fun w => w.pending.length - 1) b.blockSize) 21
          ⟨[(0, 10)], []⟩ = .ok calls ∧
        (calls.length : ℤ) = b.blockCount ∧
        (∀ r ∈ calls, r.1 < r.2 ∧ r.2 - r.1 ≤ b.blockSize) ∧
        Partitions 10 calls ∧
        awaitCalls b.blockCount calls = .ok calls := by
  refine blocks_partition Doubles.exact 4 (fun align halign x => ?_) (by decide) (by decide) 5
    (fun w => w.pending.length - 1) (by decide)
  obtain rfl : (fun x => x + x % 2) = align := by simpa using halign
  dsimp only
  omega

/-- `ParallelFor` with a `block_align` that never gives less than it is given: the calls of `f` partition
`[0, n)`, and it returns. -/
theorem parallelForAligned_partitions {align : ℤ → ℤ} (halign : ∀ x, x ≤ align x) (hn : 0 ≤ n)
    (cost : OperatorCost D) (order : Work → ℕ) {fuel : ℕ} (hfuel : 2 * n < fuel) :
    ∃ calls, parallelForAligned ops threads n cost (some align) order fuel = .ok calls ∧
      Partitions n calls := by
  rw [parallelForAligned]
  by_cases hone : n ≤ 1 ∨ threads = 1 ∨ numThreads ops (ops.ofInt n) cost threads = 1
  · exact ⟨_, if_pos hone, partitions_whole hn⟩
  · rw [if_neg hone, chooseBlocks]
    have hlarge : 1 < n := by
      by_contra h
      exact hone (.inl (by omega))
    have hsize : ∀ x : ℤ, min n (max 1 x) ≠ 0 := fun x => by omega
    simp only [hsize, ne_eq, not_false_eq_true, if_true, alignBlock_ok (halign _)]
    set first := min n (max 1 (ops.toInt (ops.div (ops.ofInt 1) (taskSize ops (ops.ofInt 1) cost))))
    have hfirst : first ≤ align first := halign first
    have henlarges : Enlarges (some align) := fun align' h x => Option.some.inj h ▸ halign x
    obtain ⟨-, b, hloop, -, calls, hcalls, -, -, hpartitions, hawait⟩ :=
      blocks_partition ops threads henlarges (by omega : 1 ≤ min n (align first)) (min_le_left n _)
        (min n (max 1 (ops.toInt (ops.mul (ops.ofInt 2)
          (ops.div (ops.ofInt 1) (taskSize ops (ops.ofInt 1) cost)))))) order hfuel
    rw [Blocks.start] at hloop
    refine ⟨calls, ?_, hpartitions⟩
    simp only [bind, Except.bind, hloop, hcalls, hawait]

end

end LearnNetlib.DeviceThreadPool
