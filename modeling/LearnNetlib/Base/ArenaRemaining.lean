import LearnNetlib.Base.ArenaRuns

/-!
# What the `assert` in `GetMemory` says

`GetMemory` begins with `assert(remaining_ <= block_size_)`, which it calls an invariant.  A new block is as
large as `block_size_`, padded to its alignment.

* `RemainingLe`, `AlwaysRemains` — the condition of the `assert`, and that it holds in every state reached;
* `Stays` — what a request must meet so that it goes on to hold;
* `Bounded` — the invariant: `Bounded.bump`, `Bounded.addBlock`, `reset_bounded`, `getMemory_bounded`;
* `getMemory_exceeds` — a request that does not meet it leaves more than `block_size_`;
* **`remainingLe_iff`** — the `assert` holds all the time exactly when every request meets it.
-/

namespace LearnNetlib.Arenas

open SpanPool Runs

/-- The condition of the `assert`. -/
def RemainingLe (s : State) : Prop := s.1.remaining ≤ s.1.blockSize

/-- It holds in every state reached, up to the first `CHECK` that fails. -/
def AlwaysRemains : State → List Op → Prop := AlwaysEnds RemainingLe (fun _ => True) step

/-- When a request is served from a new block, that block is padded by no more than what is requested; or the
padded size overflows, so that the last `CHECK` fails; or there is no memory. -/
def Stays (s : State) : Op → Prop
  | .reset => True
  | .getMemory size alignment answer =>
    size ≤ s.1.blockSize / 4 → s.1.request size alignment = some s.1.blockSize →
      padding s.1.blockSize (adjustedAlignment alignment) ≤ size ∨
        2 ^ 64 ≤ s.1.blockSize + padding s.1.blockSize (adjustedAlignment alignment) ∨
        malloc s.1.owned (adjustedBlockSize s.1.blockSize (adjustedAlignment alignment))
          (adjustedAlignment alignment) answer = 0

/-! ### The invariant -/

/-- The first block has `block_size_` bytes, and no more are left. -/
structure Bounded (a : Arena) : Prop where
  blockSize : 8 < a.blockSize
  blockSize_lt : a.blockSize < 2 ^ 64
  alloced_pos : 1 ≤ a.blocksAlloced
  first : (a.firstBlocks.headD ⟨0, 0⟩).size = a.blockSize
  remaining : a.remaining ≤ a.blockSize

variable {a : Arena} {gs : List Grant} {b : AllocatedBlock} {size k n : ℕ} {answer : ℕ}

theorem Bounded.with_rest (h : Bounded a) (freestart : ℕ) {remaining : ℕ} (hle : remaining ≤ a.blockSize) :
    Bounded { a with freestart := freestart, remaining := remaining } :=
  ⟨h.blockSize, h.blockSize_lt, h.alloced_pos, h.first, hle⟩

theorem Bounded.skip (h : Bounded a) (n : ℕ) : Bounded (a.skip n) :=
  h.with_rest _ ((Nat.sub_le _ _).trans h.remaining)

theorem Bounded.bump (h : Bounded a) (size : ℕ) : Bounded (a.bump size).2 :=
  h.with_rest _ ((Nat.sub_le _ _).trans h.remaining)

/-- A block more leaves the first one as it is. -/
theorem Bounded.addBlock (h : Bounded a) (b : AllocatedBlock) : Bounded (a.addBlock b) := by
  rw [Arena.addBlock]
  split_ifs
  · refine ⟨h.blockSize, h.blockSize_lt, Nat.le_add_left 1 _, ?_, h.remaining⟩
    have hpos := h.alloced_pos
    have hfirst := h.first
    cases hblocks : a.firstBlocks with
    | nil =>
      rw [hblocks] at hfirst
      exact hfirst
    | cons b₀ rest =>
      rw [hblocks] at hfirst
      obtain ⟨i, hi⟩ := Nat.exists_eq_add_of_le' hpos
      simp only [hi, List.set_cons_succ, List.headD_cons]
      exact hfirst
  · exact ⟨h.blockSize, h.blockSize_lt, h.alloced_pos, h.first, h.remaining⟩

/-- `Reset` leaves what the alignment leaves of the first block. -/
theorem reset_bounded (hblock : 8 < a.blockSize) (hlt : a.blockSize < 2 ^ 64)
    (hfirst : (a.firstBlocks.headD ⟨0, 0⟩).size = a.blockSize) :
    ∃ a', a.reset = .ok a' ∧ Bounded a' := by
  have hhead : a.freeBlocks.firstBlocks.headD ⟨0, 0⟩ = a.firstBlocks.headD ⟨0, 0⟩ := by
    cases hblocks : a.firstBlocks <;> simp [Arena.freeBlocks, hblocks, List.mapIdx_cons]
  have hfree : Bounded { a.freeBlocks with
      freestart := (a.firstBlocks.headD ⟨0, 0⟩).mem, remaining := (a.firstBlocks.headD ⟨0, 0⟩).size } :=
    ⟨hblock, hlt, le_rfl, hhead ▸ hfirst, hfirst.le⟩
  rw [Arena.reset]
  dsimp only
  rw [hhead, show kDefaultAlignment = 2 ^ 3 from rfl]
  rcases satisfyAlignment_spec { a.freeBlocks with
      freestart := (a.firstBlocks.headD ⟨0, 0⟩).mem, remaining := (a.firstBlocks.headD ⟨0, 0⟩).size } 3 with
    ⟨-, -, hsmall⟩ | ⟨n, hyes, -⟩
  · have hsmall' : (a.firstBlocks.headD ⟨0, 0⟩).size < 2 ^ 3 := hsmall
    omega
  · rw [hyes]
    have hskip := hfree.skip n
    exact ⟨_, rfl, hskip.blockSize, hskip.blockSize_lt, hskip.alloced_pos, hskip.first, hskip.remaining⟩

theorem new_bounded {blockSize : ℕ} (hblock : 8 < blockSize) (hlt : blockSize < 2 ^ 64) (answer : ℕ) :
    ∃ a, new blockSize answer = .ok a ∧ Bounded a :=
  reset_bounded hblock hlt rfl

/-! ### Requests -/

/-- A request that meets the condition keeps the invariant. -/
theorem getMemory_bounded (h : Bounded a) (hk : k ≤ 20)
    (hstays : Stays (a, gs) (.getMemory size (2 ^ k) answer)) :
    ∀ address a', a.getMemory size (2 ^ k) answer = .ok (address, a') → Bounded a' := by
  intro address a' hget
  rcases getMemory_outcome h.blockSize size k answer with
    ⟨-, -, hres⟩ | ⟨-, -, n, -, -, -, hres⟩ | ⟨-, -, hres⟩ | ⟨-, hsmall, hrequest, n, -, hres⟩
  · rw [hres] at hget
    cases hget
    exact h
  · rw [hres] at hget
    cases hget
    exact (h.skip n).bump size
  · obtain ⟨j, -, -, hblock⟩ := allocNewBlock_spec a hk size answer
    rw [hres] at hget
    rcases hblock with ⟨herror, -⟩ | ⟨b, hok, -⟩
    · rw [herror] at hget
      cases hget
    · rw [hok] at hget
      cases hget
      exact h.addBlock b
  · obtain ⟨j, hj, hadjusted, hblock⟩ := makeNewBlock_spec (a.skip n) hk answer
    have hstays' := hstays hsmall hrequest
    dsimp only at hstays'
    rw [hadjusted] at hstays'
    rw [hres] at hget
    rcases hblock with ⟨herror, -⟩ | ⟨b, hok, -, hsize, -, hanswer⟩
    · rw [herror] at hget
      cases hget
    · have hsize' : b.size = adjustedBlockSize a.blockSize (2 ^ j) := hsize
      rw [hok, Except.bind] at hget
      dsimp only at hget
      split_ifs at hget with hroom
      cases hget
      refine ((h.skip n).addBlock b).with_rest _ ?_
      rw [addBlock_blockSize]
      change b.size - size ≤ a.blockSize
      rcases hstays' with hpad | hwrap | hnone
      · have hmod := Nat.mod_le (a.blockSize + padding a.blockSize (2 ^ j)) (2 ^ 64)
        rw [hsize', adjustedBlockSize]
        omega
      · rw [hsize', adjustedBlockSize_of_not_lt h.blockSize_lt hj (not_lt.mpr hwrap), Nat.zero_sub]
        exact Nat.zero_le _
      · exact absurd hnone hanswer

/-- A request that does not meet it is served, and leaves more than there should be. -/
theorem getMemory_exceeds (h : Bounded a) (hk : k ≤ 20)
    (hstays : ¬ Stays (a, gs) (.getMemory size (2 ^ k) answer)) :
    ∃ address a', a.getMemory size (2 ^ k) answer = .ok (address, a') ∧ a'.blockSize < a'.remaining := by
  simp only [Stays, Classical.not_imp, not_or] at hstays
  obtain ⟨hsmall, hrequest, hpad, hwrap, hmalloc⟩ := hstays
  rcases getMemory_outcome h.blockSize size k answer with
    ⟨-, hnone, -⟩ | ⟨-, hnone, -⟩ | ⟨hbig, -⟩ | ⟨-, -, -, n, -, hres⟩
  · rw [hnone] at hrequest
    cases hrequest
  · rw [hnone] at hrequest
    cases hrequest
  · exact absurd hsmall (not_le.mpr hbig)
  · obtain ⟨j, -, hadjusted, hblock⟩ := makeNewBlock_spec (a.skip n) hk answer
    rw [hadjusted] at hpad hwrap hmalloc
    rcases hblock with ⟨-, hnone⟩ | ⟨b, hok, -, hsize, -⟩
    · exact absurd hnone hmalloc
    · have hsize' : b.size = a.blockSize + padding a.blockSize (2 ^ j) :=
        hsize.trans (Nat.mod_eq_of_lt (not_le.mp hwrap))
      have hroom : size ≤ b.size := by omega
      refine ⟨_, _, by rw [hres, hok]; exact if_pos hroom, ?_⟩
      change ((a.skip n).addBlock b).blockSize < b.size - size
      rw [addBlock_blockSize]
      change a.blockSize < b.size - size
      omega

/-! ### Runs -/

section Step

variable {s : State} {op : Op}

theorem step_bounded (h : Bounded s.1) (hop : op.WellFormed) (hstays : Stays s op) :
    Ends (fun s => Bounded s.1) (fun _ => True) (step s op) := by
  cases op with
  | reset =>
    obtain ⟨a', hres, hbounded⟩ := reset_bounded h.blockSize h.blockSize_lt h.first
    rw [step, hres]
    exact hbounded
  | getMemory size alignment answer =>
    obtain ⟨-, k, hk, rfl⟩ := hop
    have hget := getMemory_bounded h hk hstays
    rw [step]
    cases hres : s.1.getMemory size (2 ^ k) answer with
    | error e => trivial
    | ok r => exact hget r.1 r.2 hres

theorem step_exceeds (h : Bounded s.1) (hop : op.WellFormed) (hstays : ¬ Stays s op) :
    ¬ Ends RemainingLe (fun _ => True) (step s op) := by
  cases op with
  | reset => exact absurd trivial hstays
  | getMemory size alignment answer =>
    obtain ⟨-, k, hk, rfl⟩ := hop
    obtain ⟨address, a', hres, hexceeds⟩ := getMemory_exceeds h hk hstays
    rw [step, hres]
    exact not_le.mpr hexceeds

end Step

/-- **What is left is no more than `block_size_`** in every state reached, exactly when no request is served from
a new block that is padded by more than it asks for. -/
theorem remainingLe_iff {blockSize answer : ℕ} {ops : List Op} (hblock : kDefaultAlignment < blockSize)
    (hlt : blockSize < 2 ^ 64) (hops : ∀ op ∈ ops, op.WellFormed) :
    ∃ a, new blockSize answer = .ok a ∧
      (AlwaysRemains (a, []) ops ↔ ∀ p ∈ steps step (a, []) ops, Stays p.1 p.2) := by
  obtain ⟨a, hnew, hbounded⟩ := new_bounded hblock hlt answer
  have hiff := @alwaysEnds_iff_guarded _ _ _ _ (fun s : State => Bounded s.1) RemainingLe (fun _ => True)
    Op.WellFormed Stays step (fun s h => h.remaining) (fun s op h hop hstays => step_bounded h hop hstays)
    (fun s op h hop hstays => step_exceeds h hop hstays) (a, []) ops hbounded hops
  exact ⟨a, hnew, hiff⟩

/-- Blocks of 64 bytes are padded for no alignment up to 64. -/
theorem remainingLe_sixtyFour : ∃ a, new 64 4100 = .ok a ∧
    (AlwaysRemains (a, []) [.getMemory 16 64 0, .getMemory 16 64 8192] ↔
      ∀ p ∈ steps step (a, []) [.getMemory 16 64 0, .getMemory 16 64 8192], Stays p.1 p.2) :=
  remainingLe_iff (by decide) (by decide) (by
    simp only [List.forall_mem_cons, Op.WellFormed]
    exact ⟨⟨by decide, 6, by decide, rfl⟩, ⟨by decide, 6, by decide, rfl⟩, by simp⟩)

/-- With blocks of 100 bytes, the second request gets a new block of 128, of which 127 are left. -/
theorem not_alwaysRemains_hundred :
    (Op.getMemory 25 64 0).WellFormed ∧ (Op.getMemory 1 64 8192).WellFormed ∧
      ∃ a, new 100 4112 = .ok a ∧ ¬ AlwaysRemains (a, []) [.getMemory 25 64 0, .getMemory 1 64 8192] := by
  refine ⟨⟨by decide, 6, by decide, rfl⟩, ⟨by decide, 6, by decide, rfl⟩, _, rfl, fun h => ?_⟩
  have hends := h _ List.prefix_rfl
  have hle : (127 : ℕ) ≤ 100 := hends
  exact absurd hle (by decide)

end LearnNetlib.Arenas
