import LearnNetlib.Foundations.Runs
import LearnNetlib.Foundations.SpanPool
import Mathlib.Data.Nat.Bitwise

/-!
# `Arena`

Memory that is handed out piece by piece and freed at once.  Addresses and sizes are numbers below 2⁶⁴.

* `malloc` — what the allocator below may answer: a block apart from those in use, or nothing;
* `satisfyAlignment`, `allocNewBlock`, `getMemory`, `reset` — the code of `base/arena.cc` and
  `base/arena.h`, without the `assert`s;
* `step`, `Sound` — requests one after the other, and what must hold of the memory given out;
* `Shape` — the blocks of an arena; `satisfyAlignment_spec`, `allocNewBlock_spec` — what skipping to an
  alignment and getting a block come to;
* `getMemory_outcome` — what a request comes to.
-/

namespace LearnNetlib.Arenas

open SpanPool Runs

/-! ### The code -/

/-- `AllocatedBlock`; the address 0 is `NULL`. -/
structure AllocatedBlock where
  mem : ℕ
  size : ℕ
  deriving Repr, DecidableEq

/-- The addresses of a block. -/
def AllocatedBlock.span (b : AllocatedBlock) : Span := ⟨b.mem, b.size⟩

/-- `Arena`.  There are sixteen `first_blocks_`. -/
structure Arena where
  blockSize : ℕ
  remaining : ℕ
  freestart : ℕ
  freestartWhenEmpty : ℕ
  blocksAlloced : ℕ
  firstBlocks : List AllocatedBlock
  overflowBlocks : Option (List AllocatedBlock)
  deriving Repr

/-- A `CHECK` that fails. -/
inductive Failure
  | alignmentNotSatisfied
  | notPowerOfTwo
  | alignmentTooBig
  | outOfMemory
  | notEnoughRemaining
  deriving Repr, DecidableEq

/-- `malloc` and `aligned_malloc`: the answer, if it is a block of this size and alignment apart from the
blocks in use, and `NULL` otherwise. -/
def malloc (inUse : List AllocatedBlock) (size alignment answer : ℕ) : ℕ :=
  if 0 < answer ∧ alignment ∣ answer ∧ answer + size ≤ 2 ^ 64 ∧
      ∀ b ∈ inUse, b.span.Apart ⟨answer, size⟩ then answer
  else 0

/-- `kDefaultAlignment`. -/
def kDefaultAlignment : ℕ := 8

/-- `LeastCommonMultiple`; `GCD` is Euclid's algorithm. -/
def leastCommonMultiple (a b : ℕ) : ℕ :=
  if a > b then a / Nat.gcd a b * b
  else if a < b then b / Nat.gcd b a * a
  else a

/-- `adjusted_alignment`. -/
def adjustedAlignment (alignment : ℕ) : ℕ :=
  if alignment > 1 then leastCommonMultiple alignment kDefaultAlignment else 1

/-- What is added to a block's size to make it a multiple of its alignment. -/
def padding (blockSize adjustedAlignment : ℕ) : ℕ :=
  if adjustedAlignment > 1 ∧ blockSize > adjustedAlignment then
    let excess := blockSize % adjustedAlignment
    if excess > 0 then adjustedAlignment - excess else 0
  else 0

/-- `adjusted_block_size`, a `size_t`. -/
def adjustedBlockSize (blockSize adjustedAlignment : ℕ) : ℕ :=
  (blockSize + padding blockSize adjustedAlignment) % 2 ^ 64

namespace Arena

variable (a : Arena)

/-- The blocks in use. -/
def owned : List AllocatedBlock := a.firstBlocks.take a.blocksAlloced ++ a.overflowBlocks.getD []

/-- `SatisfyAlignment`. -/
def satisfyAlignment (alignment : ℕ) : Bool × Arena :=
  let overage := a.freestart &&& (alignment - 1)
  if overage > 0 then
    let waste := alignment - overage
    if waste ≥ a.remaining then (false, a)
    else (true, { a with freestart := a.freestart + waste, remaining := a.remaining - waste })
  else (true, a)

/-- The slot for one more block, filled. -/
def addBlock (b : AllocatedBlock) : Arena :=
  if a.blocksAlloced < 16 then
    { a with firstBlocks := a.firstBlocks.set a.blocksAlloced b, blocksAlloced := a.blocksAlloced + 1 }
  else { a with overflowBlocks := some (a.overflowBlocks.getD [] ++ [b]) }

/-- `AllocNewBlock`. -/
def allocNewBlock (blockSize alignment answer : ℕ) : Except Failure (AllocatedBlock × Arena) :=
  let adjustedAlignment := adjustedAlignment alignment
  if adjustedAlignment > 2 ^ 20 then .error .alignmentTooBig
  else
    let size := adjustedBlockSize blockSize adjustedAlignment
    let block := ⟨malloc a.owned size adjustedAlignment answer, size⟩
    if block.mem = 0 then .error .outOfMemory else .ok (block, a.addBlock block)

/-- `MakeNewBlock`. -/
def makeNewBlock (alignment answer : ℕ) : Except Failure Arena := do
  let (block, a) ← a.allocNewBlock a.blockSize alignment answer
  let (satisfied, a) :=
    { a with freestart := block.mem, remaining := block.size }.satisfyAlignment alignment
  if satisfied then return a else throw .alignmentNotSatisfied

/-- `size` bytes from `freestart_` on. -/
def bump (size : ℕ) : ℕ × Arena :=
  (a.freestart, { a with freestart := a.freestart + size, remaining := a.remaining - size })

/-- The rest without its first `n` bytes. -/
def skip (n : ℕ) : Arena := { a with freestart := a.freestart + n, remaining := a.remaining - n }

/-- `GetMemoryFallback`. -/
def getMemoryFallback (size alignment answer : ℕ) : Except Failure (ℕ × Arena) :=
  if size = 0 then .ok (0, a)
  else if ¬ (alignment > 0 ∧ alignment &&& (alignment - 1) = 0) then .error .notPowerOfTwo
  else if a.blockSize = 0 ∨ size > a.blockSize / 4 then do
    let (block, a) ← a.allocNewBlock size alignment answer
    return (block.mem, a)
  else do
    let (satisfied, a) := a.satisfyAlignment alignment
    let a ← if ¬ satisfied ∨ size > a.remaining then a.makeNewBlock alignment answer else .ok a
    if size ≤ a.remaining then return a.bump size else throw .notEnoughRemaining

/-- `GetMemory`. -/
def getMemory (size alignment answer : ℕ) : Except Failure (ℕ × Arena) :=
  if size > 0 ∧ size < a.remaining ∧ alignment = 1 then .ok (a.bump size)
  else a.getMemoryFallback size alignment answer

/-- `FreeBlocks`. -/
def freeBlocks : Arena :=
  { a with
    firstBlocks := a.firstBlocks.mapIdx fun i b => if 1 ≤ i ∧ i < a.blocksAlloced then ⟨0, 0⟩ else b
    blocksAlloced := 1
    overflowBlocks := none }

/-- `Reset`. -/
def reset : Except Failure Arena := do
  let a := a.freeBlocks
  let first := a.firstBlocks.headD ⟨0, 0⟩
  let (satisfied, a) :=
    { a with freestart := first.mem, remaining := first.size }.satisfyAlignment kDefaultAlignment
  if satisfied then return { a with freestartWhenEmpty := a.freestart } else throw .alignmentNotSatisfied

end Arena

/-- `Arena(block_size)`. -/
def new (blockSize answer : ℕ) : Except Failure Arena :=
  Arena.reset
    ⟨blockSize, 0, 0, 0, 1, ⟨malloc [] blockSize 1 answer, blockSize⟩ :: List.replicate 15 ⟨0, 0⟩, none⟩

/-! ### What it is for -/

/-- A request and what was returned for it. -/
structure Grant where
  size : ℕ
  alignment : ℕ
  address : ℕ
  deriving Repr, DecidableEq

/-- The addresses of a region. -/
def Grant.span (g : Grant) : Span := ⟨g.address, g.size⟩

/-- What is asked of an arena, with what the allocator below answers should it be asked. -/
inductive Op
  | reset
  | getMemory (size alignment answer : ℕ)
  deriving Repr, DecidableEq

/-- The sizes are `size_t`s, the alignments powers of two up to 2²⁰. -/
def Op.WellFormed : Op → Prop
  | .reset => True
  | .getMemory size alignment _ => size < 2 ^ 64 ∧ ∃ k ≤ 20, alignment = 2 ^ k

/-- An arena, and what it has returned since the last `Reset`. -/
abbrev State := Arena × List Grant

/-- An operation. -/
def step (s : State) : Op → Except Failure (Unit × State)
  | .reset => do
    let a ← s.1.reset
    return ((), a, [])
  | .getMemory size alignment answer => do
    let (address, a) ← s.1.getMemory size alignment answer
    return ((), a, ⟨size, alignment, address⟩ :: s.2)

/-- The regions lie where they should, and what is left is the end of a block. -/
structure Sound (s : State) : Prop where
  null : ∀ g ∈ s.2, g.address = 0 ↔ g.size = 0
  aligned : ∀ g ∈ s.2, g.alignment ∣ g.address
  inside : ∀ g ∈ s.2, g.address ≠ 0 → ∃ b ∈ s.1.owned, g.span.Inside b.span
  apart : (s.2.filter fun g => g.address ≠ 0).Pairwise fun g g' => g.span.Apart g'.span
  carving : ∃ b ∈ s.1.owned, b.mem ≤ s.1.freestart ∧ s.1.freestart + s.1.remaining = b.mem + b.size

/-- Each operation leaves a sound state, and no `CHECK` fails but for want of memory. -/
def AlwaysSound : State → List Op → Prop := AlwaysEnds Sound (· = .outOfMemory) step

/-- The size of the block a request asks the allocator below for. -/
def Arena.request (a : Arena) (size alignment : ℕ) : Option ℕ :=
  if size = 0 ∨ (size < a.remaining ∧ alignment = 1) then none
  else if size > a.blockSize / 4 then some size
  else
    let (satisfied, a') := a.satisfyAlignment alignment
    if ¬ satisfied ∨ size > a'.remaining then some a.blockSize else none

/-- A block that is asked for can be padded, or cannot be had. -/
def Fits (s : State) : Op → Prop
  | .reset => True
  | .getMemory size alignment answer =>
    ∀ blockSize ∈ s.1.request size alignment,
      blockSize + padding blockSize (adjustedAlignment alignment) < 2 ^ 64 ∨
        malloc s.1.owned (adjustedBlockSize blockSize (adjustedAlignment alignment))
          (adjustedAlignment alignment) answer = 0

/-! ### Numbers -/

theorem adjustedAlignment_two_pow : ∀ k ≤ 20, ∃ j ≤ 20, k ≤ j ∧ adjustedAlignment (2 ^ k) = 2 ^ j := by
  decide +kernel

section Padding

variable {blockSize j : ℕ}

theorem padding_lt : padding blockSize (2 ^ j) < 2 ^ j := by
  have hpos : 0 < 2 ^ j := Nat.two_pow_pos j
  rw [padding]
  split_ifs
  · dsimp only
    split_ifs
    · omega
    · exact hpos
  · exact hpos

/-- A size that is padded is padded to a multiple. -/
theorem padded_le (hsize : blockSize < 2 ^ 64) (hj : j ≤ 20) :
    blockSize + padding blockSize (2 ^ j) ≤ 2 ^ 64 := by
  have hpos : 0 < 2 ^ j := Nat.two_pow_pos j
  have hpow : 2 ^ 64 = 2 ^ j * 2 ^ (64 - j) := by
    rw [← Nat.pow_add]
    congr 1
    omega
  have hquot : blockSize / 2 ^ j + 1 ≤ 2 ^ (64 - j) := by
    rw [Nat.succ_le_iff, Nat.div_lt_iff_lt_mul hpos, Nat.mul_comm, ← hpow]
    exact hsize
  have hle : 2 ^ j * (blockSize / 2 ^ j + 1) ≤ 2 ^ 64 := hpow ▸ Nat.mul_le_mul_left _ hquot
  have hdiv := Nat.div_add_mod blockSize (2 ^ j)
  have hmod := Nat.mod_lt blockSize hpos
  rw [padding]
  rw [Nat.mul_add, Nat.mul_one] at hle
  split_ifs
  · dsimp only
    split_ifs <;> omega
  · omega

theorem adjustedBlockSize_of_lt (h : blockSize + padding blockSize (2 ^ j) < 2 ^ 64) :
    blockSize ≤ adjustedBlockSize blockSize (2 ^ j) := by
  rw [adjustedBlockSize, Nat.mod_eq_of_lt h]
  exact Nat.le_add_right ..

theorem adjustedBlockSize_of_not_lt (hsize : blockSize < 2 ^ 64) (hj : j ≤ 20)
    (h : ¬ blockSize + padding blockSize (2 ^ j) < 2 ^ 64) : adjustedBlockSize blockSize (2 ^ j) = 0 := by
  rw [adjustedBlockSize, Nat.le_antisymm (padded_le hsize hj) (Nat.le_of_not_lt h), Nat.mod_self]

end Padding

/-! ### The parts of an arena -/

/-- What the fields of an arena are, `freestart_` and `remaining_` apart. -/
structure Shape (a : Arena) : Prop where
  blockSize : 8 < a.blockSize
  length : a.firstBlocks.length = 16
  first : (a.firstBlocks.headD ⟨0, 0⟩).size = a.blockSize
  alloced_pos : 1 ≤ a.blocksAlloced
  alloced_le : a.blocksAlloced ≤ 16
  overflow : a.blocksAlloced < 16 → a.overflowBlocks = none
  blocks : ∀ b ∈ a.owned, 0 < b.mem ∧ b.mem + b.size ≤ 2 ^ 64

/-- What an allocator answers with. -/
structure Fresh (a : Arena) (b : AllocatedBlock) : Prop where
  mem : 0 < b.mem
  stop : b.mem + b.size ≤ 2 ^ 64
  apart : ∀ b' ∈ a.owned, b'.span.Apart b.span

section Parts

variable {a : Arena} {b : AllocatedBlock}

theorem Shape.exists_first (h : Shape a) : ∃ b₀ rest k,
    a.firstBlocks = b₀ :: rest ∧ b₀.size = a.blockSize ∧ a.blocksAlloced = k + 1 := by
  have hlength := h.length
  have hfirst := h.first
  obtain ⟨k, hk⟩ := Nat.exists_eq_add_of_le' h.alloced_pos
  cases hcases : a.firstBlocks with
  | nil => simp [hcases] at hlength
  | cons b₀ rest =>
    rw [hcases] at hfirst
    exact ⟨b₀, rest, k, rfl, hfirst, hk⟩

theorem Shape.owned_addBlock (h : Shape a) (b : AllocatedBlock) : (a.addBlock b).owned = a.owned ++ [b] := by
  rw [Arena.addBlock]
  split_ifs with hslot
  · have hlt : a.blocksAlloced < a.firstBlocks.length := by
      rw [h.length]
      exact hslot
    simp only [Arena.owned, h.overflow hslot, Option.getD_none, List.append_nil]
    rw [List.take_add_one, List.take_set_of_le le_rfl, List.getElem?_set_self hlt]
    rfl
  · simp [Arena.owned]

theorem addBlock_blockSize (a : Arena) (b : AllocatedBlock) : (a.addBlock b).blockSize = a.blockSize := by
  rw [Arena.addBlock]
  split_ifs <;> rfl

theorem Shape.addBlock (h : Shape a) (hb : Fresh a b) : Shape (a.addBlock b) := by
  have howned := h.owned_addBlock b
  have hblocks : ∀ b' ∈ (a.addBlock b).owned, 0 < b'.mem ∧ b'.mem + b'.size ≤ 2 ^ 64 := by
    rw [howned]
    exact List.forall_mem_append.mpr ⟨h.blocks, List.forall_mem_singleton.mpr ⟨hb.mem, hb.stop⟩⟩
  rw [Arena.addBlock] at hblocks ⊢
  split_ifs with hslot
  · rw [if_pos hslot] at hblocks
    refine ⟨h.blockSize, ?_, ?_, Nat.le_add_left 1 _, hslot, fun hlt => h.overflow ?_, hblocks⟩
    · exact (List.length_set ..).trans h.length
    · obtain ⟨b₀, rest, k, hcases, hsize, hk⟩ := h.exists_first
      simpa [hcases, hk] using hsize
    · exact Nat.lt_of_succ_lt hlt
  · rw [if_neg hslot] at hblocks
    exact ⟨h.blockSize, h.length, h.first, h.alloced_pos, h.alloced_le, fun hlt => absurd hlt hslot, hblocks⟩

theorem Shape.blockSize_lt (h : Shape a) : a.blockSize < 2 ^ 64 := by
  obtain ⟨b₀, rest, k, hcases, hsize, hk⟩ := h.exists_first
  have hb := h.blocks b₀ (by simp [Arena.owned, hcases, hk])
  omega

/-- `FreeBlocks` keeps the first block. -/
theorem Shape.freeBlocks (h : Shape a) : ∃ b₀ ∈ a.owned, b₀.size = a.blockSize ∧
    a.freeBlocks.firstBlocks.headD ⟨0, 0⟩ = b₀ ∧ a.freeBlocks.owned = [b₀] ∧ Shape a.freeBlocks := by
  obtain ⟨b₀, rest, k, hcases, hsize, hk⟩ := h.exists_first
  have hmem : b₀ ∈ a.owned := by simp [Arena.owned, hcases, hk]
  have hhead : a.freeBlocks.firstBlocks.headD ⟨0, 0⟩ = b₀ := by
    simp [Arena.freeBlocks, hcases, List.mapIdx_cons]
  have howned : a.freeBlocks.owned = [b₀] := by
    simp [Arena.freeBlocks, Arena.owned, hcases, List.mapIdx_cons]
  refine ⟨b₀, hmem, hsize, hhead, howned, h.blockSize, ?_, ?_, le_rfl, (by decide : 1 ≤ 16), fun _ => rfl,
    ?_⟩
  · simpa [Arena.freeBlocks] using h.length
  · rw [hhead]
    exact hsize
  · rw [howned]
    exact List.forall_mem_singleton.mpr (h.blocks b₀ hmem)

/-- `SatisfyAlignment` wastes some of the rest, if there is more. -/
theorem satisfyAlignment_spec (a : Arena) (k : ℕ) :
    (a.satisfyAlignment (2 ^ k) = (false, a) ∧ ¬ 2 ^ k ∣ a.freestart ∧ a.remaining < 2 ^ k) ∨
      ∃ n, a.satisfyAlignment (2 ^ k) =
          (true, { a with freestart := a.freestart + n, remaining := a.remaining - n }) ∧
        n ≤ a.remaining ∧ 2 ^ k ∣ a.freestart + n ∧ (2 ^ k ∣ a.freestart → n = 0) := by
  have hpos : 0 < 2 ^ k := Nat.two_pow_pos k
  have hover : a.freestart &&& (2 ^ k - 1) = a.freestart % 2 ^ k := Nat.and_two_pow_sub_one_eq_mod _ _
  have hdvd := Nat.dvd_iff_mod_eq_zero (m := 2 ^ k) (n := a.freestart)
  have hmod := Nat.mod_lt a.freestart hpos
  rw [Arena.satisfyAlignment, hover]
  dsimp only
  by_cases hzero : a.freestart % 2 ^ k = 0
  · rw [if_neg (by omega)]
    exact .inr ⟨0, rfl, Nat.zero_le _, hdvd.mpr hzero, fun _ => rfl⟩
  · rw [if_pos (by omega)]
    split_ifs with hwaste
    · exact .inl ⟨rfl, fun h => hzero (hdvd.mp h), by omega⟩
    · refine .inr ⟨_, rfl, by omega, ?_, fun h => absurd (hdvd.mp h) hzero⟩
      have hdiv := Nat.div_add_mod a.freestart (2 ^ k)
      refine ⟨a.freestart / 2 ^ k + 1, ?_⟩
      rw [Nat.mul_add, Nat.mul_one]
      omega

/-- `AllocNewBlock` answers with a block of the size it has come to, unless there is no memory. -/
theorem allocNewBlock_spec (a : Arena) {k : ℕ} (hk : k ≤ 20) (blockSize answer : ℕ) :
    ∃ j ≤ 20, adjustedAlignment (2 ^ k) = 2 ^ j ∧
      ((a.allocNewBlock blockSize (2 ^ k) answer = .error .outOfMemory ∧
          malloc a.owned (adjustedBlockSize blockSize (2 ^ j)) (2 ^ j) answer = 0) ∨
        ∃ b, a.allocNewBlock blockSize (2 ^ k) answer = .ok (b, a.addBlock b) ∧ Fresh a b ∧
          b.size = adjustedBlockSize blockSize (2 ^ j) ∧ 2 ^ j ∣ b.mem ∧ 2 ^ k ∣ b.mem ∧
          malloc a.owned (adjustedBlockSize blockSize (2 ^ j)) (2 ^ j) answer ≠ 0) := by
  obtain ⟨j, hj, hkj, hadjusted⟩ := adjustedAlignment_two_pow k hk
  refine ⟨j, hj, hadjusted, ?_⟩
  have hle : ¬ 2 ^ j > 2 ^ 20 := not_lt.mpr (Nat.pow_le_pow_right (by decide) hj)
  rw [Arena.allocNewBlock, hadjusted]
  dsimp only
  rw [if_neg hle]
  by_cases hanswer : malloc a.owned (adjustedBlockSize blockSize (2 ^ j)) (2 ^ j) answer = 0
  · exact .inl ⟨if_pos hanswer, hanswer⟩
  · refine .inr ⟨_, if_neg hanswer, ?_⟩
    dsimp only
    have hgood : 0 < answer ∧ 2 ^ j ∣ answer ∧ answer + adjustedBlockSize blockSize (2 ^ j) ≤ 2 ^ 64 ∧
        ∀ b ∈ a.owned, b.span.Apart ⟨answer, adjustedBlockSize blockSize (2 ^ j)⟩ := by
      by_contra hno
      exact hanswer (if_neg hno)
    have hmalloc : malloc a.owned (adjustedBlockSize blockSize (2 ^ j)) (2 ^ j) answer = answer :=
      if_pos hgood
    rw [hmalloc]
    exact ⟨⟨hgood.1, hgood.2.2.1, hgood.2.2.2⟩, rfl, hgood.2.1,
      (pow_dvd_pow 2 hkj).trans hgood.2.1, by omega⟩

/-- What a request comes to: nothing is asked for; it is served from the rest; it gets a block of its own; it is
served from a new block. -/
theorem getMemory_outcome (hblock : 8 < a.blockSize) (size k answer : ℕ) :
    (size = 0 ∧ a.request size (2 ^ k) = none ∧ a.getMemory size (2 ^ k) answer = .ok (0, a)) ∨
      (0 < size ∧ a.request size (2 ^ k) = none ∧ ∃ n ≤ a.remaining, size ≤ a.remaining - n ∧
        2 ^ k ∣ a.freestart + n ∧ a.getMemory size (2 ^ k) answer = .ok ((a.skip n).bump size)) ∨
      (a.blockSize / 4 < size ∧ a.request size (2 ^ k) = some size ∧ a.getMemory size (2 ^ k) answer =
        (a.allocNewBlock size (2 ^ k) answer).map fun r => (r.1.mem, r.2)) ∨
      (0 < size ∧ size ≤ a.blockSize / 4 ∧ a.request size (2 ^ k) = some a.blockSize ∧
        ∃ n ≤ a.remaining, a.getMemory size (2 ^ k) answer =
          ((a.skip n).makeNewBlock (2 ^ k) answer).bind fun a' =>
            if size ≤ a'.remaining then .ok (a'.bump size) else .error .notEnoughRemaining) := by
  rw [Arena.request, Arena.getMemory]
  by_cases hzero : size = 0
  · subst hzero
    rw [if_pos (.inl rfl), if_neg (by simp)]
    exact .inl ⟨rfl, rfl, rfl⟩
  have hpos : 0 < size := Nat.pos_of_ne_zero hzero
  by_cases hinline : size < a.remaining ∧ 2 ^ k = 1
  · rw [if_pos (.inr hinline), if_pos ⟨hpos, hinline⟩]
    refine .inr (.inl ⟨hpos, rfl, 0, Nat.zero_le _, hinline.1.le, ?_, rfl⟩)
    rw [hinline.2]
    exact one_dvd _
  have hpower : 2 ^ k > 0 ∧ 2 ^ k &&& (2 ^ k - 1) = 0 := by
    refine ⟨Nat.two_pow_pos k, ?_⟩
    rw [Nat.and_two_pow_sub_one_eq_mod, Nat.mod_self]
  have hfallback : ¬ (size > 0 ∧ size < a.remaining ∧ 2 ^ k = 1) := fun hno => hinline hno.2
  rw [if_neg (not_or.mpr ⟨hzero, hinline⟩), if_neg hfallback, Arena.getMemoryFallback, if_neg hzero,
    if_neg (not_not.mpr hpower)]
  by_cases hbig : size > a.blockSize / 4
  · rw [if_pos hbig, if_pos (.inr hbig)]
    refine .inr (.inr (.inl ⟨hbig, rfl, ?_⟩))
    cases a.allocNewBlock size (2 ^ k) answer <;> rfl
  · rw [if_neg hbig, if_neg (by omega)]
    rcases satisfyAlignment_spec a k with ⟨hno, -⟩ | ⟨n, hyes, hn, hdvd, -⟩
    · rw [hno]
      refine .inr (.inr (.inr ⟨hpos, not_lt.mp hbig, by simp, 0, Nat.zero_le _, ?_⟩))
      simp only [bind, Except.bind]
      rw [if_pos (.inl Bool.false_ne_true)]
      rfl
    · rw [hyes]
      by_cases hroom : size ≤ a.remaining - n
      · refine .inr (.inl ⟨hpos, by simp [hroom], n, hn, hroom, hdvd, ?_⟩)
        simp only [bind, Except.bind]
        rw [if_neg (by simp [hroom]), if_pos hroom]
        rfl
      · refine .inr (.inr (.inr ⟨hpos, not_lt.mp hbig, by simpa using hroom, n, hn, ?_⟩))
        simp only [bind, Except.bind]
        rw [if_pos (.inr (not_le.mp hroom))]
        rfl

end Parts

end LearnNetlib.Arenas
