import LearnNetlib.Foundations.Loops
import LearnNetlib.Thread.CostModel

/-!
# `thread::DeviceThreadPool::ParallelFor`

* `coarsen`, `handleRange`, `parallelFor` — the code of `base/thread/device_thread_pool.h`, the scheduled
  halves being run in any order;
* `Partitions` — what the calls of `f` are to do;
* **`parallelFor_completes_iff`** — without a `block_align` it completes only where it needs no blocks.
-/

namespace LearnNetlib.DeviceThreadPool

open LearnNetlib.Loops LearnNetlib.CostModel

/-! ### The code -/

/-- How `ParallelFor` may fail: an empty `std::function` is called, an `assert` fails, or the end has not
come within the steps it was given. -/
inductive Failure
  | badFunctionCall
  | assertFailed
  | stillRunning
  deriving Repr, DecidableEq

/-- `divup`. -/
def divup (x y : ℤ) : ℤ := (x + y - 1).tdiv y

/-- A call of `block_align`, the check of what it gives, and `std::min` with `n`. -/
def alignBlock (n : ℤ) (blockAlign : Option (ℤ → ℤ)) (blockSize : ℤ) : Except Failure ℤ :=
  match blockAlign with
  | none => .error .badFunctionCall
  | some blockAlign =>
    let newBlockSize := blockAlign blockSize
    if newBlockSize ≥ blockSize then .ok (min n newBlockSize) else .error .assertFailed

/-- The variables of the coarsening loop. -/
structure Blocks (D : Type) where
  prevBlockCount : ℤ
  blockSize : ℤ
  blockCount : ℤ
  maxEfficiency : D

section

variable {D : Type} (ops : Doubles D) (threads n : ℤ)

/-- The part of the threads' time that is used. -/
def efficiency (blockCount : ℤ) : D :=
  ops.div (ops.ofInt blockCount) (ops.ofInt (divup blockCount threads * threads))

/-- One turn of the coarsening loop. -/
def coarsen (blockAlign : Option (ℤ → ℤ)) (maxBlockSize : ℤ) (b : Blocks D) :
    Except Failure (Blocks D ⊕ Blocks D) :=
  if b.prevBlockCount > 1 then do
    let coarserBlockSize := divup n (b.prevBlockCount - 1)
    let coarserBlockSize ←
      if blockAlign.isSome then alignBlock n blockAlign coarserBlockSize else pure coarserBlockSize
    if coarserBlockSize > maxBlockSize then
      -- Reached max block size. Stop.
      return .inr b
    else
      let coarserBlockCount := divup n coarserBlockSize
      if coarserBlockCount < b.prevBlockCount then
        let b := { b with prevBlockCount := coarserBlockCount }
        let coarserEfficiency := efficiency ops threads coarserBlockCount
        -- coarser_efficiency + 0.01 >= max_efficiency
        if ops.le b.maxEfficiency
            (ops.add coarserEfficiency (ops.div (ops.ofInt 1) (ops.ofInt 100))) then
          return .inl { b with
            blockSize := coarserBlockSize
            blockCount := coarserBlockCount
            maxEfficiency :=
              if ops.lt b.maxEfficiency coarserEfficiency then coarserEfficiency
              else b.maxEfficiency }
        else return .inl b
      else .error .assertFailed
  else return .inr b

/-- The block size and the number of blocks. -/
def chooseBlocks (cost : OperatorCost D) (blockAlign : Option (ℤ → ℤ)) (fuel : ℕ) :
    Except Failure (Blocks D) := do
  let blockSizeF := ops.div (ops.ofInt 1) (taskSize ops (ops.ofInt 1) cost)
  let blockSize := min n (max 1 (ops.toInt blockSizeF))
  let maxBlockSize := min n (max 1 (ops.toInt (ops.mul (ops.ofInt 2) blockSizeF)))
  let blockSize ← if blockSize ≠ 0 then alignBlock n blockAlign blockSize else pure blockSize
  let blockCount := divup n blockSize
  loop .stillRunning (coarsen ops threads n blockAlign maxBlockSize) fuel
    ⟨blockCount, blockSize, blockCount, efficiency ops threads blockCount⟩

end

/-- A range of indices, from the first up to the last. -/
abbrev Range : Type := ℤ × ℤ

/-- `HandleRange`: a range of one block is for `f`; of a longer one both halves are scheduled. -/
def handleRange (blockSize : ℤ) (r : Range) : Option (Range × Range) :=
  if r.2 - r.1 ≤ blockSize then none
  else
    let mid := r.1 + divup ((r.2 - r.1).tdiv 2) blockSize * blockSize
    some ((mid, r.2), (r.1, mid))

/-- The ranges that are scheduled, and the calls of `f` and `Notify` so far. -/
structure Work where
  pending : List Range
  calls : List Range

/-- One scheduled range is handled: the one `order` picks. -/
def handleNext (order : Work → ℕ) (blockSize : ℤ) (w : Work) : Except Failure (Work ⊕ List Range) :=
  let i := order w % w.pending.length
  match w.pending[i]? with
  | none => .ok (.inr w.calls)
  | some r =>
    let pending := w.pending.eraseIdx i
    match handleRange blockSize r with
    | none => .ok (.inl ⟨pending, w.calls ++ [r]⟩)
    | some (upper, lower) => .ok (.inl ⟨pending ++ [upper, lower], w.calls⟩)

/-- `barrier.Wait()` for as many calls as were announced. -/
def awaitCalls (blockCount : ℤ) (calls : List Range) : Except Failure (List Range) :=
  if (calls.length : ℤ) = blockCount then .ok calls
  else if (calls.length : ℤ) < blockCount then .error .stillRunning
  -- a `Notify` too many
  else .error .assertFailed

/-- `ParallelFor` with a `block_align`, which may be empty; it gives the calls of `f`. -/
def parallelForAligned {D : Type} (ops : Doubles D) (threads n : ℤ) (cost : OperatorCost D)
    (blockAlign : Option (ℤ → ℤ)) (order : Work → ℕ) (fuel : ℕ) : Except Failure (List Range) :=
  if n ≤ 1 ∨ threads = 1 ∨ numThreads ops (ops.ofInt n) cost threads = 1 then .ok [(0, n)]
  else do
    let b ← chooseBlocks ops threads n cost blockAlign fuel
    let calls ← loop .stillRunning (handleNext order b.blockSize) fuel ⟨[(0, n)], []⟩
    awaitCalls b.blockCount calls

/-- `ParallelFor` without one. -/
def parallelFor {D : Type} (ops : Doubles D) (threads n : ℤ) (cost : OperatorCost D)
    (order : Work → ℕ) (fuel : ℕ) : Except Failure (List Range) :=
  parallelForAligned ops threads n cost none order fuel

/-! ### What it does -/

/-- The ranges lie in `[0, n)`, and every index there is in exactly one of them. -/
def Partitions (n : ℤ) (calls : List Range) : Prop :=
  (∀ r ∈ calls, 0 ≤ r.1 ∧ r.1 ≤ r.2 ∧ r.2 ≤ n) ∧
    ∀ i, 0 ≤ i → i < n → calls.countP (fun r => r.1 ≤ i ∧ i < r.2) = 1

theorem partitions_whole {n : ℤ} (hn : 0 ≤ n) : Partitions n [(0, n)] := by
  refine ⟨fun r hr => ?_, fun i hi hin => ?_⟩
  · rw [List.mem_singleton.mp hr]
    exact ⟨Int.le_refl 0, hn, Int.le_refl n⟩
  · simp [hi, hin]

/-- The first block size is never 0, so that `block_align` is called. -/
theorem chooseBlocks_of_none {D : Type} (ops : Doubles D) (threads : ℤ) {n : ℤ} (hn : 1 < n)
    (cost : OperatorCost D) (fuel : ℕ) :
    chooseBlocks ops threads n cost none fuel = .error .badFunctionCall := by
  have hsize : ∀ x : ℤ, min n (max 1 x) ≠ 0 := fun x => by omega
  rw [chooseBlocks]
  simp only [hsize, ne_eq, not_false_eq_true, if_true, alignBlock]
  rfl

/-- **`ParallelFor` without a `block_align`** completes, with calls of `f` that partition `[0, n)`,
exactly if there is no more than one index, no more than one thread, or the cost model asks for no more
than one; otherwise it calls the empty `block_align`.  This is so whatever the operations on `double`
give. -/
theorem parallelFor_completes_iff {D : Type} (ops : Doubles D) (threads n : ℤ) (hn : 0 ≤ n)
    (cost : OperatorCost D) (order : Work → ℕ) (fuel : ℕ) :
    ((∃ calls, parallelFor ops threads n cost order fuel = .ok calls ∧ Partitions n calls) ↔
        n ≤ 1 ∨ threads = 1 ∨ numThreads ops (ops.ofInt n) cost threads = 1) ∧
      (¬ (n ≤ 1 ∨ threads = 1 ∨ numThreads ops (ops.ofInt n) cost threads = 1) →
        parallelFor ops threads n cost order fuel = .error .badFunctionCall) := by
  have hblocks : ¬ (n ≤ 1 ∨ threads = 1 ∨ numThreads ops (ops.ofInt n) cost threads = 1) →
      parallelFor ops threads n cost order fuel = .error .badFunctionCall := by
    intro hmany
    have hlarge : 1 < n := by
      by_contra h
      exact hmany (.inl (by omega))
    rw [parallelFor, parallelForAligned, if_neg hmany, chooseBlocks_of_none ops threads hlarge]
    rfl
  refine ⟨⟨?_, fun hone => ⟨[(0, n)], if_pos hone, partitions_whole hn⟩⟩, hblocks⟩
  rintro ⟨calls, hcalls, -⟩
  by_contra hmany
  rw [hblocks hmany] at hcalls
  cases hcalls

/-- A single index. -/
theorem parallelFor_completes_iff_one :
    ((∃ calls, parallelFor Doubles.exact 2 1 ⟨0, 0, 400000⟩ (fun _ => 0) 5 = .ok calls ∧
          Partitions 1 calls) ↔
        (1 : ℤ) ≤ 1 ∨ (2 : ℤ) = 1 ∨
          numThreads Doubles.exact (Doubles.exact.ofInt 1) ⟨0, 0, 400000⟩ 2 = 1) ∧
      (¬ ((1 : ℤ) ≤ 1 ∨ (2 : ℤ) = 1 ∨
          numThreads Doubles.exact (Doubles.exact.ofInt 1) ⟨0, 0, 400000⟩ 2 = 1) →
        parallelFor Doubles.exact 2 1 ⟨0, 0, 400000⟩ (fun _ => 0) 5 = .error .badFunctionCall) :=
  parallelFor_completes_iff Doubles.exact 2 1 (by decide) ⟨0, 0, 400000⟩ (fun _ => 0) 5

/-- Two indices that cost 400000 cycles each, and two threads: in `double` all is exact up to 7.9, which is
made 7. -/
theorem parallelFor_badFunctionCall :
    parallelFor Doubles.exact 2 2 ⟨0, 0, 400000⟩ (fun _ => 0) 5 = .error .badFunctionCall := by
  decide +kernel

end LearnNetlib.DeviceThreadPool
