import LearnNetlib.Foundations.CheckedInt
import LearnNetlib.Thread.ParallelFor

/-!
# `ParallelFor` in `int`

An `Index` is an `int`.

* `Checked.divup`, `Checked.coarsen`, `Checked.handleRange`, `Checked.parallelFor` — the code of
  `base/thread/device_thread_pool.h`, stopped by an overflow;
* `divup_eq`, `coarsen_eq`, `handleRange_eq` — each overflows exactly when a sum with a divisor does, and does
  else what it does without bounds;
* `SumsFit` — the sums that `ParallelFor` computes before its divisions;
* **`parallelFor_overflow_iff`** — the whole of `ParallelFor`.
-/

namespace LearnNetlib.DeviceThreadPool

open LearnNetlib.Loops LearnNetlib.CostModel CheckedInt

/-! ### The code -/

namespace Checked

/-- How `ParallelFor` may fail when integers are bounded. -/
inductive Trap
  | overflow
  | failed (failure : Failure)
  deriving Repr, DecidableEq

/-- The result of an operation, an `Index`. -/
def index (x : ℤ) : Except Trap ℤ := IntType.int.exact .overflow x

/-- `divup`. -/
def divup (x y : ℤ) : Except Trap ℤ := do
  let sum ← index (x + y)
  let numerator ← index (sum - 1)
  index (numerator.tdiv y)

section

variable {D : Type} (ops : Doubles D) (threads n : ℤ)

/-- The part of the threads' time that is used. -/
def efficiency (blockCount : ℤ) : Except Trap D := do
  let turns ← divup blockCount threads
  let slots ← index (turns * threads)
  return ops.div (ops.ofInt blockCount) (ops.ofInt slots)

/-- One turn of the coarsening loop. -/
def coarsen (blockAlign : Option (ℤ → ℤ)) (maxBlockSize : ℤ) (b : Blocks D) :
    Except Trap (Blocks D ⊕ Blocks D) :=
  if b.prevBlockCount > 1 then do
    let fewer ← index (b.prevBlockCount - 1)
    let coarserBlockSize ← divup n fewer
    let coarserBlockSize ←
      if blockAlign.isSome then (alignBlock n blockAlign coarserBlockSize).mapError .failed
      else pure coarserBlockSize
    if coarserBlockSize > maxBlockSize then
      -- Reached max block size. Stop.
      return .inr b
    else
      let coarserBlockCount ← divup n coarserBlockSize
      if coarserBlockCount < b.prevBlockCount then
        let b := { b with prevBlockCount := coarserBlockCount }
        let coarserEfficiency ← efficiency ops threads coarserBlockCount
        -- coarser_efficiency + 0.01 >= max_efficiency
        if ops.le b.maxEfficiency
            (ops.add coarserEfficiency (ops.div (ops.ofInt 1) (ops.ofInt 100))) then
          return .inl { b with
            blockSize := coarserBlockSize
            blockCount := coarserBlockCount
            maxEfficiency :=
              if ops.lt b.maxEfficiency coarserEfficiency then coarserEfficiency
              else b.maxEfficiency }
        else return .inl b
      else .error (.failed .assertFailed)
  else return .inr b

/-- The block size and the number of blocks. -/
def chooseBlocks (cost : OperatorCost D) (blockAlign : Option (ℤ → ℤ)) (fuel : ℕ) :
    Except Trap (Blocks D) := do
  let blockSizeF := ops.div (ops.ofInt 1) (taskSize ops (ops.ofInt 1) cost)
  let blockSize := min n (max 1 (ops.toInt blockSizeF))
  let maxBlockSize := min n (max 1 (ops.toInt (ops.mul (ops.ofInt 2) blockSizeF)))
  let blockSize ←
    if blockSize ≠ 0 then (alignBlock n blockAlign blockSize).mapError .failed else pure blockSize
  let blockCount ← divup n blockSize
  let maxEfficiency ← efficiency ops threads blockCount
  loop (.failed .stillRunning) (coarsen ops threads n blockAlign maxBlockSize) fuel
    ⟨blockCount, blockSize, blockCount, maxEfficiency⟩

end

/-- `HandleRange`. -/
def handleRange (blockSize : ℤ) (r : Range) : Except Trap (Option (Range × Range)) := do
  let length ← index (r.2 - r.1)
  if length ≤ blockSize then return none
  else
    let blocks ← divup (length.tdiv 2) blockSize
    let front ← index (blocks * blockSize)
    let mid ← index (r.1 + front)
    return some ((mid, r.2), (r.1, mid))

/-- One scheduled range is handled: the one `order` picks. -/
def handleNext (order : Work → ℕ) (blockSize : ℤ) (w : Work) : Except Trap (Work ⊕ List Range) :=
  let i := order w % w.pending.length
  match w.pending[i]? with
  | none => .ok (.inr w.calls)
  | some r => do
    let pending := w.pending.eraseIdx i
    match ← handleRange blockSize r with
    | none => return .inl ⟨pending, w.calls ++ [r]⟩
    | some (upper, lower) => return .inl ⟨pending ++ [upper, lower], w.calls⟩

/-- `ParallelFor` with a `block_align`, which may be empty. -/
def parallelFor {D : Type} (ops : Doubles D) (threads n : ℤ) (cost : OperatorCost D)
    (blockAlign : Option (ℤ → ℤ)) (order : Work → ℕ) (fuel : ℕ) : Except Trap (List Range) :=
  if n ≤ 1 ∨ threads = 1 ∨ numThreads ops (ops.ofInt n) cost threads = 1 then .ok [(0, n)]
  else do
    let b ← chooseBlocks ops threads n cost blockAlign fuel
    let calls ← loop (.failed .stillRunning) (handleNext order b.blockSize) fuel ⟨[(0, n)], []⟩
    (awaitCalls b.blockCount calls).mapError .failed

end Checked

/-! ### The sums -/

/-- The largest `Index`. -/
def maxIndex : ℤ := IntType.int.max

section

variable {D : Type} (ops : Doubles D) (threads n : ℤ)

/-- The block size a turn of the loop tries. -/
def coarserBlockSize (blockAlign : Option (ℤ → ℤ)) (b : Blocks D) : Except Failure ℤ :=
  if blockAlign.isSome then alignBlock n blockAlign (divup n (b.prevBlockCount - 1))
  else pure (divup n (b.prevBlockCount - 1))

/-- The sums of a turn. -/
def TurnFits (blockAlign : Option (ℤ → ℤ)) (maxBlockSize : ℤ) (b : Blocks D) : Prop :=
  1 < b.prevBlockCount →
    n + (b.prevBlockCount - 1) ≤ maxIndex ∧
      ∀ y, coarserBlockSize n blockAlign b = .ok y → y ≤ maxBlockSize → n + y ≤ maxIndex

/-- `max_block_size`. -/
def maxBlockSize (cost : OperatorCost D) : ℤ :=
  min n (max 1 (ops.toInt (ops.mul (ops.ofInt 2) (ops.div (ops.ofInt 1) (taskSize ops (ops.ofInt 1) cost)))))

/-- The block size in front of the loop. -/
def firstBlockSize (cost : OperatorCost D) (blockAlign : Option (ℤ → ℤ)) : Except Failure ℤ :=
  let blockSize := min n (max 1 (ops.toInt (ops.div (ops.ofInt 1) (taskSize ops (ops.ofInt 1) cost))))
  if blockSize ≠ 0 then alignBlock n blockAlign blockSize else pure blockSize

/-- **The sums of `ParallelFor`**: of `n` and the first block size, of the number of blocks and that of threads,
and those of every turn of the loop.  There are none if `f` is called once for all. -/
def SumsFit (cost : OperatorCost D) (blockAlign : Option (ℤ → ℤ)) (fuel : ℕ) : Prop :=
  ¬ (n ≤ 1 ∨ threads = 1 ∨ numThreads ops (ops.ofInt n) cost threads = 1) →
    ∀ blockSize, firstBlockSize ops n cost blockAlign = .ok blockSize →
      n + blockSize ≤ maxIndex ∧ divup n blockSize + threads ≤ maxIndex ∧
        ∀ b ∈ heads (coarsen ops threads n blockAlign (maxBlockSize ops n cost)) fuel
            (Blocks.start ops threads n blockSize),
          TurnFits n blockAlign (maxBlockSize ops n cost) b

end

/-! ### Quotients -/

section Quotients

variable {x y : ℤ}

theorem index_of_le (hx : 0 ≤ x) (hmax : x ≤ maxIndex) : Checked.index x = .ok x :=
  IntType.exact_of_holds ⟨(IntType.min_nonpos _).trans hx, hmax⟩

theorem index_of_lt (hmax : maxIndex < x) : Checked.index x = .error .overflow :=
  IntType.exact_of_not_holds fun h => absurd h.2 (not_le.mpr hmax)

theorem divup_mul_lt (hx : 0 ≤ x) (hy : 1 ≤ y) : divup x y * y < x + y := by
  have hlt := (lt_divup_iff (k := divup x y - 1) hx hy).mp (by omega)
  rw [Int.sub_mul] at hlt
  omega

theorem divup_nonneg (hx : 0 ≤ x) (hy : 1 ≤ y) : 0 ≤ divup x y := by
  by_contra hneg
  have hle := (divup_le_iff (k := -1) hx hy).mp (by omega)
  omega

/-- **`divup`** overflows exactly when its sum does. -/
theorem divup_eq (hx : 0 ≤ x) (hy : 1 ≤ y) :
    Checked.divup x y = if x + y ≤ maxIndex then .ok (divup x y) else .error .overflow := by
  rw [Checked.divup]
  split_ifs with hfits
  · have hle : divup x y ≤ x + y - 1 := by
      refine (divup_le_iff hx hy).mpr ?_
      have hmul : (x + y - 1) * 1 ≤ (x + y - 1) * y := Int.mul_le_mul_of_nonneg_left hy (by omega)
      omega
    rw [index_of_le (by omega) hfits]
    simp only [bind, Except.bind]
    rw [index_of_le (by omega) (by omega)]
    exact index_of_le (divup_nonneg hx hy) (by rw [← divup]; omega)
  · rw [index_of_lt (not_le.mp hfits)]
    rfl

end Quotients

/-! ### The coarsening loop -/

section Coarsen

variable {D : Type} (ops : Doubles D) {threads n : ℤ} {blockAlign : Option (ℤ → ℤ)} {maxBlockSize : ℤ}
  {b : Blocks D}

/-- The product does not overflow if the sum did not. -/
theorem efficiency_eq {blockCount : ℤ} (hcount : 0 ≤ blockCount) (hthreads : 1 ≤ threads) :
    Checked.efficiency ops threads blockCount =
      if blockCount + threads ≤ maxIndex then .ok (efficiency ops threads blockCount)
      else .error .overflow := by
  rw [Checked.efficiency, divup_eq hcount hthreads]
  split_ifs with hfits
  · have hlt := divup_mul_lt hcount hthreads
    have hpos : 0 ≤ divup blockCount threads * threads :=
      Int.mul_nonneg (divup_nonneg hcount hthreads) (by omega)
    simp only [bind, Except.bind]
    rw [index_of_le hpos (by omega)]
    rfl
  · rfl

namespace Checked

/-- The rest of a turn, once it has its block size. -/
def coarsenTo (threads n maxBlockSize : ℤ) (b : Blocks D) (coarserBlockSize : ℤ) :
    Except Trap (Blocks D ⊕ Blocks D) :=
  if coarserBlockSize > maxBlockSize then return .inr b
  else do
    let coarserBlockCount ← divup n coarserBlockSize
    if coarserBlockCount < b.prevBlockCount then
      let coarserEfficiency ← efficiency ops threads coarserBlockCount
      if ops.le b.maxEfficiency
          (ops.add coarserEfficiency (ops.div (ops.ofInt 1) (ops.ofInt 100))) then
        return .inl ⟨coarserBlockCount, coarserBlockSize, coarserBlockCount,
          if ops.lt b.maxEfficiency coarserEfficiency then coarserEfficiency else b.maxEfficiency⟩
      else return .inl { b with prevBlockCount := coarserBlockCount }
    else .error (.failed .assertFailed)

end Checked

theorem coarserBlockSize_bounds (hn : 1 ≤ n) (hprev : 1 < b.prevBlockCount) {y : ℤ}
    (hy : coarserBlockSize n blockAlign b = .ok y) : 1 ≤ y ∧ y ≤ n := by
  have hpos : 1 ≤ divup n (b.prevBlockCount - 1) := divup_pos hn (by omega)
  have hle : divup n (b.prevBlockCount - 1) ≤ n := divup_le_self hn (by omega)
  rw [coarserBlockSize] at hy
  cases blockAlign with
  | none =>
    cases hy
    exact ⟨hpos, hle⟩
  | some align =>
    simp only [Option.isSome_some, if_true, alignBlock] at hy
    split_ifs at hy with halign
    cases hy
    omega

theorem coarsen_eq_bind (hprev : 1 < b.prevBlockCount) :
    coarsen ops threads n blockAlign maxBlockSize b =
      (coarserBlockSize n blockAlign b).bind (coarsenTo ops threads n maxBlockSize b) := by
  rw [coarsen, if_pos hprev, coarserBlockSize]
  cases blockAlign with
  | none => rfl
  | some align => rfl

theorem checked_coarsen_eq_bind (hn : 1 ≤ n) (hprev : 1 < b.prevBlockCount)
    (hmax : b.prevBlockCount ≤ maxIndex) :
    Checked.coarsen ops threads n blockAlign maxBlockSize b =
      if n + (b.prevBlockCount - 1) ≤ maxIndex then
        ((coarserBlockSize n blockAlign b).mapError .failed).bind
          (Checked.coarsenTo ops threads n maxBlockSize b)
      else .error .overflow := by
  rw [Checked.coarsen, if_pos hprev, index_of_le (by omega) (by omega)]
  simp only [bind, Except.bind]
  rw [divup_eq (by omega) (by omega), coarserBlockSize]
  by_cases hsum : n + (b.prevBlockCount - 1) ≤ maxIndex
  · rw [if_pos hsum, if_pos hsum]
    cases blockAlign with
    | none => rfl
    | some align => rfl
  · rw [if_neg hsum, if_neg hsum]

/-- The rest of a turn overflows exactly when `n` and the block size tried do. -/
theorem coarsenTo_eq (hn : 1 ≤ n) (hthreads : 1 ≤ threads) (hprev : b.prevBlockCount + threads ≤ maxIndex)
    {y : ℤ} (hy : 1 ≤ y) :
    Checked.coarsenTo ops threads n maxBlockSize b y =
      if y ≤ maxBlockSize → n + y ≤ maxIndex then
        (coarsenTo ops threads n maxBlockSize b y).mapError .failed
      else .error .overflow := by
  rw [Checked.coarsenTo, coarsenTo]
  by_cases hstop : y > maxBlockSize
  · rw [if_pos hstop, if_pos hstop, if_pos fun hle => absurd hstop (not_lt.mpr hle)]
    rfl
  · rw [if_neg hstop, if_neg hstop, divup_eq (by omega) hy]
    by_cases hfits : n + y ≤ maxIndex
    · rw [if_pos hfits, if_pos fun _ => hfits]
      simp only [bind, Except.bind]
      by_cases hfewer : divup n y < b.prevBlockCount
      · have hcount : 0 ≤ divup n y := divup_nonneg (by omega) hy
        rw [if_pos hfewer, if_pos hfewer, efficiency_eq ops hcount hthreads, if_pos (by omega)]
        dsimp only
        by_cases hefficient : ops.le b.maxEfficiency
            (ops.add (efficiency ops threads (divup n y)) (ops.div (ops.ofInt 1) (ops.ofInt 100))) = true
        · rw [if_pos hefficient, if_pos hefficient]
          rfl
        · rw [if_neg hefficient, if_neg hefficient]
          rfl
      · rw [if_neg hfewer, if_neg hfewer]
        rfl
    · rw [if_neg hfits, if_neg fun himp => hfits (himp (not_lt.mp hstop))]
      rfl

/-- **A turn** overflows exactly when one of its sums does. -/
theorem coarsen_eq (hn : 1 ≤ n) (hthreads : 1 ≤ threads) (hb : b.prevBlockCount + threads ≤ maxIndex) :
    (TurnFits n blockAlign maxBlockSize b →
      Checked.coarsen ops threads n blockAlign maxBlockSize b =
        (coarsen ops threads n blockAlign maxBlockSize b).mapError .failed) ∧
    (¬ TurnFits n blockAlign maxBlockSize b →
      Checked.coarsen ops threads n blockAlign maxBlockSize b = .error .overflow) := by
  by_cases hprev : 1 < b.prevBlockCount
  · rw [TurnFits, checked_coarsen_eq_bind ops hn hprev (by omega), coarsen_eq_bind ops hprev]
    by_cases hsum : n + (b.prevBlockCount - 1) ≤ maxIndex
    · rw [if_pos hsum]
      cases hres : coarserBlockSize n blockAlign b with
      | error e => exact ⟨fun _ => rfl, fun hno => absurd (fun _ => ⟨hsum, fun y hy => by cases hy⟩) hno⟩
      | ok y =>
        have hy := (coarserBlockSize_bounds hn hprev hres).1
        have hiff : (1 < b.prevBlockCount → n + (b.prevBlockCount - 1) ≤ maxIndex ∧
            ∀ y', (Except.ok y : Except Failure ℤ) = .ok y' → y' ≤ maxBlockSize → n + y' ≤ maxIndex) ↔
            (y ≤ maxBlockSize → n + y ≤ maxIndex) := by
          simp [hprev, hsum]
        rw [hiff]
        simp only [Except.mapError, Except.bind]
        rw [coarsenTo_eq ops hn hthreads hb hy]
        exact ⟨fun hfits => if_pos hfits, fun hno => if_neg hno⟩
    · rw [if_neg hsum]
      exact ⟨fun hfits => absurd (hfits hprev).1 hsum, fun _ => rfl⟩
  · rw [Checked.coarsen, coarsen, if_neg hprev, if_neg hprev]
    exact ⟨fun _ => rfl, fun hno => absurd (fun h => absurd h hprev) hno⟩

/-- What the loop keeps. -/
structure LoopFits (threads n : ℤ) (b : Blocks D) : Prop extends b.Fits n where
  sum : n + b.blockSize ≤ maxIndex
  threads : b.prevBlockCount + threads ≤ maxIndex

theorem coarsen_loopFits (hn : 1 ≤ n) (hb : LoopFits threads n b)
    (hfits : TurnFits n blockAlign maxBlockSize b) {r : Blocks D ⊕ Blocks D}
    (hres : coarsen ops threads n blockAlign maxBlockSize b = .ok r) :
    LoopFits threads n (r.elim id id) := by
  by_cases hprev : 1 < b.prevBlockCount
  · rw [coarsen_eq_bind ops hprev] at hres
    cases hsize : coarserBlockSize n blockAlign b with
    | error e =>
      rw [hsize] at hres
      cases hres
    | ok y =>
      have hy := coarserBlockSize_bounds hn hprev hsize
      have hsum := (hfits hprev).2 y hsize
      have hle := hb.prev
      have hthreads := hb.threads
      rw [hsize] at hres
      simp only [Except.bind, coarsenTo] at hres
      by_cases hstop : y > maxBlockSize
      · rw [if_pos hstop] at hres
        cases hres
        exact hb
      · rw [if_neg hstop] at hres
        by_cases hfewer : divup n y < b.prevBlockCount
        · have hnew (e : D) : LoopFits threads n (⟨divup n y, y, divup n y, e⟩ : Blocks D) :=
            ⟨⟨hy.1, hy.2, rfl, hfewer.le.trans hle⟩, hsum (not_lt.mp hstop), by dsimp only; omega⟩
          have hkept : LoopFits threads n { b with prevBlockCount := divup n y } :=
            ⟨⟨hb.pos, hb.le, hb.count, hfewer.le.trans hle⟩, hb.sum, by dsimp only; omega⟩
          rw [if_pos hfewer] at hres
          split at hres
          · cases hres
            exact hnew _
          · cases hres
            exact hkept
        · rw [if_neg hfewer] at hres
          cases hres
  · rw [coarsen, if_neg hprev] at hres
    cases hres
    exact hb

/-- The loop overflows exactly when a turn does, and leaves room for `n`. -/
theorem coarsen_loop_eq (hn : 1 ≤ n) (hthreads : 1 ≤ threads) (hb : LoopFits threads n b) (fuel : ℕ) :
    ((∀ h ∈ heads (coarsen ops threads n blockAlign maxBlockSize) fuel b,
        TurnFits n blockAlign maxBlockSize h) →
      loop (.failed .stillRunning) (Checked.coarsen ops threads n blockAlign maxBlockSize) fuel b =
          (loop .stillRunning (coarsen ops threads n blockAlign maxBlockSize) fuel b).mapError .failed ∧
        ∀ b', loop .stillRunning (coarsen ops threads n blockAlign maxBlockSize) fuel b = .ok b' →
          LoopFits threads n b') ∧
    (¬ (∀ h ∈ heads (coarsen ops threads n blockAlign maxBlockSize) fuel b,
        TurnFits n blockAlign maxBlockSize h) →
      loop (.failed .stillRunning) (Checked.coarsen ops threads n blockAlign maxBlockSize) fuel b =
        .error .overflow) := by
  have hturn : ∀ b, LoopFits threads n b → TurnFits n blockAlign maxBlockSize b →
      TurnKeeps (LoopFits threads n) (fun r => ∀ b', r = .ok b' → LoopFits threads n b')
        (coarsen ops threads n blockAlign maxBlockSize b) := by
    intro b hb hfits
    cases hres : coarsen ops threads n blockAlign maxBlockSize b with
    | error e => exact fun b' hb' => by cases hb'
    | ok r =>
      have hkeep := coarsen_loopFits ops hn hb hfits hres
      cases r with
      | inl b' => exact hkeep
      | inr b' => exact fun b'' hb'' => Except.ok.inj hb'' ▸ hkeep
  have htraps : _ ∧ _ := @loop_traps _ _ _ _ (coarsen ops threads n blockAlign maxBlockSize)
    (Checked.coarsen ops threads n blockAlign maxBlockSize) (LoopFits threads n)
    (TurnFits n blockAlign maxBlockSize) Checked.Trap.failed .overflow
    (fun b b' hb hfits hres => coarsen_loopFits ops hn hb hfits hres)
    (fun b hb hfits => (coarsen_eq ops hn hthreads hb.threads).1 hfits)
    (fun b hb hfits => (coarsen_eq ops hn hthreads hb.threads).2 hfits) .stillRunning fuel b hb
  refine ⟨fun hfits => ⟨htraps.1 hfits, ?_⟩, htraps.2⟩
  exact loop_outcome (LoopFits threads n) (TurnFits n blockAlign maxBlockSize)
    (fun r => ∀ b', r = .ok b' → LoopFits threads n b') (fun b' hb' => by cases hb') hturn hb hfits

end Coarsen

section Choose

variable {D : Type} (ops : Doubles D) {threads n : ℤ} {blockAlign : Option (ℤ → ℤ)} {cost : OperatorCost D}
  {fuel : ℕ}

theorem firstBlockSize_bounds (hn : 1 ≤ n) {blockSize : ℤ}
    (hfirst : firstBlockSize ops n cost blockAlign = .ok blockSize) : 1 ≤ blockSize ∧ blockSize ≤ n := by
  have hsize : ∀ x : ℤ, min n (max 1 x) ≠ 0 := fun x => by omega
  rw [firstBlockSize, if_pos (hsize _)] at hfirst
  cases blockAlign with
  | none => cases hfirst
  | some align =>
    rw [alignBlock] at hfirst
    split_ifs at hfirst with halign
    cases hfirst
    omega

theorem chooseBlocks_eq_bind : chooseBlocks ops threads n cost blockAlign fuel =
    (firstBlockSize ops n cost blockAlign).bind fun blockSize =>
      loop .stillRunning (coarsen ops threads n blockAlign (maxBlockSize ops n cost)) fuel
        (Blocks.start ops threads n blockSize) := by
  rw [chooseBlocks, firstBlockSize]
  dsimp only
  split_ifs <;> rfl

theorem checked_chooseBlocks_eq_bind : Checked.chooseBlocks ops threads n cost blockAlign fuel =
    ((firstBlockSize ops n cost blockAlign).mapError .failed).bind fun blockSize =>
      (Checked.divup n blockSize).bind fun blockCount =>
        (Checked.efficiency ops threads blockCount).bind fun maxEfficiency =>
          loop (.failed .stillRunning) (Checked.coarsen ops threads n blockAlign (maxBlockSize ops n cost)) fuel
            ⟨blockCount, blockSize, blockCount, maxEfficiency⟩ := by
  rw [Checked.chooseBlocks, firstBlockSize]
  dsimp only
  split_ifs <;> rfl

/-- **The choice of the blocks** overflows exactly when one of its sums does, and the block size leaves room for
`n`. -/
theorem chooseBlocks_eq (hn : 1 < n) (hthreads : 1 ≤ threads)
    (hmany : ¬ (n ≤ 1 ∨ threads = 1 ∨ numThreads ops (ops.ofInt n) cost threads = 1)) :
    (SumsFit ops threads n cost blockAlign fuel →
      Checked.chooseBlocks ops threads n cost blockAlign fuel =
          (chooseBlocks ops threads n cost blockAlign fuel).mapError .failed ∧
        ∀ b, chooseBlocks ops threads n cost blockAlign fuel = .ok b → LoopFits threads n b) ∧
    (¬ SumsFit ops threads n cost blockAlign fuel →
      Checked.chooseBlocks ops threads n cost blockAlign fuel = .error .overflow) := by
  rw [chooseBlocks_eq_bind, checked_chooseBlocks_eq_bind]
  simp only [SumsFit, hmany, not_false_eq_true, true_imp_iff]
  cases hfirst : firstBlockSize ops n cost blockAlign with
  | error e => exact ⟨fun _ => ⟨rfl, fun b hb => by cases hb⟩, fun hno => absurd (fun bs hbs => by cases hbs) hno⟩
  | ok blockSize =>
    obtain ⟨hpos, hle⟩ := firstBlockSize_bounds ops hn.le hfirst
    have hcount : 0 ≤ divup n blockSize := divup_nonneg (by omega) hpos
    simp only [Except.ok.injEq, forall_eq', Except.mapError, Except.bind]
    rw [divup_eq (by omega) hpos]
    by_cases hsum : n + blockSize ≤ maxIndex
    · rw [if_pos hsum]
      dsimp only
      rw [efficiency_eq ops hcount hthreads]
      by_cases hslots : divup n blockSize + threads ≤ maxIndex
      · rw [if_pos hslots]
        have hstart : LoopFits threads n (Blocks.start ops threads n blockSize) :=
          ⟨Blocks.fits_start ops threads hpos hle, hsum, hslots⟩
        have hloop := @coarsen_loop_eq D ops threads n blockAlign (maxBlockSize ops n cost) _ hn.le hthreads
          hstart fuel
        exact ⟨fun h => hloop.1 h.2.2, fun h => hloop.2 fun hall => h ⟨hsum, hslots, hall⟩⟩
      · rw [if_neg hslots]
        exact ⟨fun h => absurd h.2.1 hslots, fun _ => rfl⟩
    · rw [if_neg hsum]
      exact ⟨fun h => absurd h.1 hsum, fun _ => rfl⟩

end Choose

/-! ### The recursion -/

section Handle

variable {n blockSize : ℤ}

/-- **`HandleRange`** overflows exactly when half of a range and a block do: its `mid` lies inside. -/
theorem handleRange_eq (hsize : 1 ≤ blockSize) {r : Range} (hfirst : 0 ≤ r.1) (hlast : r.1 ≤ r.2)
    (hmax : r.2 ≤ maxIndex) :
    Checked.handleRange blockSize r =
      if blockSize < r.2 - r.1 → (r.2 - r.1).tdiv 2 + blockSize ≤ maxIndex then
        .ok (handleRange blockSize r)
      else .error .overflow := by
  rw [Checked.handleRange, index_of_le (by omega) (by omega)]
  simp only [bind, Except.bind]
  by_cases hshort : r.2 - r.1 ≤ blockSize
  · rw [if_pos hshort, if_pos fun hlt => absurd hshort (not_le.mpr hlt), handleRange, if_pos hshort]
    rfl
  · have hhalf : 0 ≤ (r.2 - r.1).tdiv 2 := Int.tdiv_nonneg (by omega) (by decide)
    rw [if_neg hshort, divup_eq hhalf hsize]
    by_cases hfits : (r.2 - r.1).tdiv 2 + blockSize ≤ maxIndex
    · have hsome : handleRange blockSize r =
          some ((r.1 + divup ((r.2 - r.1).tdiv 2) blockSize * blockSize, r.2),
            (r.1, r.1 + divup ((r.2 - r.1).tdiv 2) blockSize * blockSize)) := if_neg hshort
      obtain ⟨mid, hupper, -, hlo, hhi, -⟩ := handleRange_split hsize hsome
      obtain rfl : _ = mid := congrArg Prod.fst hupper
      rw [if_pos hfits, if_pos fun _ => hfits, hsome]
      dsimp only
      rw [index_of_le (by omega) (by omega)]
      dsimp only
      rw [index_of_le (by omega) (by omega)]
      rfl
    · rw [if_neg hfits, if_neg fun himp => hfits (himp (not_le.mp hshort))]

/-- If a block leaves room for all indices, no range overflows. -/
theorem handleNext_eq (hsize : 1 ≤ blockSize) (hroom : n + blockSize ≤ maxIndex) (order : Work → ℕ) {w : Work}
    (hw : w.Fits n blockSize) :
    Checked.handleNext order blockSize w = (handleNext order blockSize w).mapError .failed := by
  rw [Checked.handleNext, handleNext]
  dsimp only
  cases hget : w.pending[order w % w.pending.length]? with
  | none => rfl
  | some r =>
    have hr := hw.bounds r (List.mem_append_left _ (List.mem_of_getElem? hget))
    have hhalf : (r.2 - r.1).tdiv 2 = (r.2 - r.1) / 2 := Int.tdiv_eq_ediv_of_nonneg (by omega)
    have heq := handleRange_eq hsize hr.1 hr.2.1.le (by omega)
    rw [if_pos fun _ => by omega] at heq
    simp only [heq, bind, Except.bind]
    cases handleRange blockSize r <;> rfl

theorem handle_loop_eq (hn : 1 ≤ n) (hsize : 1 ≤ blockSize) (hroom : n + blockSize ≤ maxIndex)
    (order : Work → ℕ) (fuel : ℕ) :
    loop (.failed .stillRunning) (Checked.handleNext order blockSize) fuel ⟨[(0, n)], []⟩ =
      (loop .stillRunning (handleNext order blockSize) fuel ⟨[(0, n)], []⟩).mapError .failed := by
  have hkeep : ∀ w w' : Work, w.Fits n blockSize → True → handleNext order blockSize w = .ok (.inl w') →
      w'.Fits n blockSize := by
    intro w w' hw _ hres
    rcases handleNext_turn hsize order w hw with ⟨w₁, hres₁, hw₁, -⟩ | ⟨calls, hres₁, -⟩
    · rw [hres₁] at hres
      cases hres
      exact hw₁
    · rw [hres₁] at hres
      cases hres
  have htraps : _ ∧ _ := @loop_traps _ _ _ _ (handleNext order blockSize) (Checked.handleNext order blockSize)
    (Work.Fits n blockSize) (fun _ => True) Checked.Trap.failed .overflow hkeep
    (fun w hw _ => handleNext_eq hsize hroom order hw) (fun w _ hno => absurd trivial hno) .stillRunning fuel _
    (Work.fits_init hn)
  exact htraps.1 fun _ _ => trivial

end Handle

/-! ### Both together -/

/-- **`ParallelFor` in `int`** overflows exactly when one of its sums does, and does else what it does without
bounds: for all `n` that are `int`s, whatever `block_align` and the operations on `double` give, and in any
order of the scheduled halves. -/
theorem parallelFor_overflow_iff {D : Type} (ops : Doubles D) {threads n : ℤ} (hthreads : 1 ≤ threads)
    (cost : OperatorCost D) (blockAlign : Option (ℤ → ℤ)) (order : Work → ℕ) (fuel : ℕ) :
    (Checked.parallelFor ops threads n cost blockAlign order fuel ≠ .error .overflow ↔
      SumsFit ops threads n cost blockAlign fuel) ∧
    (SumsFit ops threads n cost blockAlign fuel →
      Checked.parallelFor ops threads n cost blockAlign order fuel =
        (parallelForAligned ops threads n cost blockAlign order fuel).mapError .failed) := by
  have hfailed {α : Type} (x : Except Failure α) :
      x.mapError Checked.Trap.failed ≠ .error .overflow := by
    cases x <;> exact fun h => by cases h
  have hagree : SumsFit ops threads n cost blockAlign fuel →
      Checked.parallelFor ops threads n cost blockAlign order fuel =
        (parallelForAligned ops threads n cost blockAlign order fuel).mapError .failed := by
    intro hfits
    rw [Checked.parallelFor, parallelForAligned]
    by_cases hone : n ≤ 1 ∨ threads = 1 ∨ numThreads ops (ops.ofInt n) cost threads = 1
    · rw [if_pos hone, if_pos hone]
      rfl
    · have hlarge : 1 < n := not_le.mp fun h => hone (.inl h)
      obtain ⟨hchoose, hroom⟩ := (chooseBlocks_eq ops hlarge hthreads hone).1 hfits
      rw [if_neg hone, if_neg hone, hchoose]
      cases hres : chooseBlocks ops threads n cost blockAlign fuel with
      | error e => rfl
      | ok b =>
        have hb := hroom b hres
        have hloop := handle_loop_eq hlarge.le hb.pos hb.sum order fuel
        simp only [bind, Except.mapError, Except.bind]
        rw [hloop]
        cases loop .stillRunning (handleNext order b.blockSize) fuel ⟨[(0, n)], []⟩ <;> rfl
  refine ⟨⟨fun hno => ?_, fun hfits => ?_⟩, hagree⟩
  · by_contra hfits
    have hone : ¬ (n ≤ 1 ∨ threads = 1 ∨ numThreads ops (ops.ofInt n) cost threads = 1) := fun hone =>
      hfits fun hmany => absurd hone hmany
    have hlarge : 1 < n := not_le.mp fun h => hone (.inl h)
    refine hno ?_
    rw [Checked.parallelFor, if_neg hone, (chooseBlocks_eq ops hlarge hthreads hone).2 hfits]
    rfl
  · rw [hagree hfits]
    exact hfailed _

/-- Ten indices, two threads, blocks of at least 2. -/
theorem parallelFor_overflow_iff_ten :
    (Checked.parallelFor Doubles.exact 2 10 ⟨0, 0, 400000⟩ (some fun x => x + 1) (fun _ => 0) 21 ≠
        .error .overflow ↔
      SumsFit Doubles.exact 2 10 ⟨0, 0, 400000⟩ (some fun x => x + 1) 21) ∧
    (SumsFit Doubles.exact 2 10 ⟨0, 0, 400000⟩ (some fun x => x + 1) 21 →
      Checked.parallelFor Doubles.exact 2 10 ⟨0, 0, 400000⟩ (some fun x => x + 1) (fun _ => 0) 21 =
        (parallelForAligned Doubles.exact 2 10 ⟨0, 0, 400000⟩ (some fun x => x + 1) (fun _ => 0) 21).mapError
          .failed) :=
  parallelFor_overflow_iff Doubles.exact (by decide) ⟨0, 0, 400000⟩ (some fun x => x + 1) (fun _ => 0) 21

/-- With the largest `int` as `n` the sum of `n` and the first block size, 40000, overflows. -/
theorem parallelFor_overflow_max :
    maxIndex = 2147483647 ∧
      firstBlockSize Doubles.exact 2147483647 ⟨0, 0, 1⟩ (some id) = .ok 40000 ∧
      Checked.parallelFor Doubles.exact 2 2147483647 ⟨0, 0, 1⟩ (some id) (fun _ => 0) 1 = .error .overflow := by
  decide +kernel

end LearnNetlib.DeviceThreadPool
