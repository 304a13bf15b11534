import LearnNetlib.Base.Arena

/-!
# `Arena` over whole runs

* `pool`, `Inv` — the arena as blocks, a rest and what was given out;
* `Inv.skip`, `Inv.bump`, `Inv.give`, `Inv.refill` — each piece of the code goes on by a rule for pools;
* `getMemory_cases` — what a request comes to;
* **`arena_sound_iff`** — an arena is sound all the time, unless the padding of a block overflows.
-/

namespace LearnNetlib.Arenas

open SpanPool Runs

/-- The spans of an arena. -/
def pool (s : State) : Pool :=
  ⟨s.1.owned.map AllocatedBlock.span, ⟨s.1.freestart, s.1.remaining⟩,
    (s.2.filter fun g => g.address ≠ 0).map Grant.span⟩

/-- The invariant. -/
structure Inv (s : State) : Prop where
  shape : Shape s.1
  valid : (pool s).Valid
  null : ∀ g ∈ s.2, g.address = 0 ↔ g.size = 0
  aligned : ∀ g ∈ s.2, g.alignment ∣ g.address

theorem Inv.sound {s : State} (h : Inv s) : Sound s := by
  refine ⟨h.null, h.aligned, fun g hg hne => ?_, List.pairwise_map.mp h.valid.given, ?_⟩
  · have hmem : g.span ∈ (pool s).given :=
      List.mem_map_of_mem (List.mem_filter.mpr ⟨hg, decide_eq_true hne⟩)
    obtain ⟨r, hr, hinside⟩ := h.valid.inside g.span hmem
    obtain ⟨b, hb, rfl⟩ := List.mem_map.mp hr
    exact ⟨b, hb, hinside⟩
  · obtain ⟨r, hr, hstart, hstop⟩ := h.valid.rest
    obtain ⟨b, hb, rfl⟩ := List.mem_map.mp hr
    exact ⟨b, hb, hstart, hstop⟩

/-! ### The rules -/

section Rules

variable {a : Arena} {gs : List Grant} {b : AllocatedBlock} {size k n : ℕ}

/-- The rest has an address. -/
theorem Inv.freestart_ne_zero (h : Inv (a, gs)) : a.freestart ≠ 0 := by
  obtain ⟨r, hr, hstart, -⟩ := h.valid.rest
  obtain ⟨b, hb, rfl⟩ := List.mem_map.mp hr
  have hpos := (h.shape.blocks b hb).1
  have hle : b.mem ≤ a.freestart := hstart
  omega

/-- The fields that the rules change are not part of the shape. -/
theorem Shape.with_rest (h : Shape a) (freestart remaining : ℕ) :
    Shape { a with freestart := freestart, remaining := remaining } :=
  ⟨h.blockSize, h.length, h.first, h.alloced_pos, h.alloced_le, h.overflow, h.blocks⟩

theorem addBlock_rest (a : Arena) (b : AllocatedBlock) :
    (a.addBlock b).freestart = a.freestart ∧ (a.addBlock b).remaining = a.remaining := by
  rw [Arena.addBlock]
  split_ifs <;> exact ⟨rfl, rfl⟩

theorem pool_cons {g : Grant} (hg : g.address ≠ 0) :
    pool (a, g :: gs) = { pool (a, gs) with given := g.span :: (pool (a, gs)).given } := by
  simp [pool, hg]

theorem Inv.skip (h : Inv (a, gs)) (hn : n ≤ a.remaining) : Inv (a.skip n, gs) :=
  ⟨h.shape.with_rest .., h.valid.skip hn, h.null, h.aligned⟩

theorem Inv.null_grant (h : Inv (a, gs)) (alignment : ℕ) : Inv (a, ⟨0, alignment, 0⟩ :: gs) := by
  refine ⟨h.shape, ?_, List.forall_mem_cons.mpr ⟨by simp, h.null⟩,
    List.forall_mem_cons.mpr ⟨Nat.dvd_zero _, h.aligned⟩⟩
  simpa [pool] using h.valid

theorem Inv.bump (h : Inv (a, gs)) (hpos : 0 < size) (hle : size ≤ a.remaining)
    (halign : 2 ^ k ∣ a.freestart) : Inv ((a.bump size).2, ⟨size, 2 ^ k, (a.bump size).1⟩ :: gs) := by
  have hne := h.freestart_ne_zero
  refine ⟨h.shape.with_rest .., ?_, List.forall_mem_cons.mpr ⟨?_, h.null⟩,
    List.forall_mem_cons.mpr ⟨halign, h.aligned⟩⟩
  · rw [pool_cons hne]
    exact h.valid.carve hle
  · exact iff_of_false hne hpos.ne'

theorem Fresh.apart_blocks (hb : Fresh a b) (gs : List Grant) :
    ∀ r ∈ (pool (a, gs)).blocks, r.Apart b.span := by
  intro r hr
  obtain ⟨b', hb', rfl⟩ := List.mem_map.mp hr
  exact hb.apart b' hb'

section NewBlock

variable (h : Inv (a, gs)) (hb : Fresh a b)

include h hb

theorem Inv.give (hpos : 0 < size) (hle : size ≤ b.size) (halign : 2 ^ k ∣ b.mem) :
    Inv (a.addBlock b, ⟨size, 2 ^ k, b.mem⟩ :: gs) := by
  refine ⟨h.shape.addBlock hb, ?_, List.forall_mem_cons.mpr ⟨?_, h.null⟩,
    List.forall_mem_cons.mpr ⟨halign, h.aligned⟩⟩
  · rw [pool_cons hb.mem.ne']
    have hgive := h.valid.give (hb.apart_blocks gs) hle
    simp only [pool, h.shape.owned_addBlock b, addBlock_rest, List.map_append, List.map_singleton]
    exact hgive
  · exact iff_of_false hb.mem.ne' hpos.ne'

theorem Inv.refill : Inv ({ a.addBlock b with freestart := b.mem, remaining := b.size }, gs) := by
  refine ⟨(h.shape.addBlock hb).with_rest .., ?_, h.null, h.aligned⟩
  have hrefill := h.valid.refill (hb.apart_blocks gs)
  have howned : { a.addBlock b with freestart := b.mem, remaining := b.size }.owned = a.owned ++ [b] :=
    h.shape.owned_addBlock b
  simp only [pool, howned, List.map_append, List.map_singleton]
  exact hrefill

end NewBlock

end Rules

/-! ### Requests -/

section Requests

variable {a : Arena} {gs : List Grant} {size k : ℕ} {answer : ℕ}

/-- `MakeNewBlock` carves a new block from its beginning on. -/
theorem makeNewBlock_spec (a : Arena) (hk : k ≤ 20) (answer : ℕ) :
    ∃ j ≤ 20, adjustedAlignment (2 ^ k) = 2 ^ j ∧
      ((a.makeNewBlock (2 ^ k) answer = .error .outOfMemory ∧
          malloc a.owned (adjustedBlockSize a.blockSize (2 ^ j)) (2 ^ j) answer = 0) ∨
        ∃ b, a.makeNewBlock (2 ^ k) answer =
            .ok { a.addBlock b with freestart := b.mem, remaining := b.size } ∧ Fresh a b ∧
          b.size = adjustedBlockSize a.blockSize (2 ^ j) ∧ 2 ^ k ∣ b.mem ∧
          malloc a.owned (adjustedBlockSize a.blockSize (2 ^ j)) (2 ^ j) answer ≠ 0) := by
  obtain ⟨j, hj, hadjusted, hres⟩ := allocNewBlock_spec a hk a.blockSize answer
  refine ⟨j, hj, hadjusted, ?_⟩
  rw [Arena.makeNewBlock]
  rcases hres with ⟨herror, hanswer⟩ | ⟨b, hok, hfresh, hsize, -, hdvd, hanswer⟩
  · exact .inl ⟨by rw [herror]; rfl, hanswer⟩
  · refine .inr ⟨b, ?_, hfresh, hsize, hdvd, hanswer⟩
    rw [hok]
    simp only [bind, Except.bind]
    rcases satisfyAlignment_spec { a.addBlock b with freestart := b.mem, remaining := b.size } k with
      ⟨-, hno, -⟩ | ⟨n, hyes, -, -, hzero⟩
    · exact absurd hdvd hno
    · rw [hyes, hzero hdvd]
      rfl

/-- `getMemory_outcome` with the invariant. -/
theorem getMemory_cases (h : Inv (a, gs)) (size k answer : ℕ) :
    (a.request size (2 ^ k) = none ∧ ∃ address a', a.getMemory size (2 ^ k) answer = .ok (address, a') ∧
        Inv (a', ⟨size, 2 ^ k, address⟩ :: gs)) ∨
      (a.request size (2 ^ k) = some size ∧ 0 < size ∧ a.getMemory size (2 ^ k) answer =
        (a.allocNewBlock size (2 ^ k) answer).map fun r => (r.1.mem, r.2)) ∨
      a.request size (2 ^ k) = some a.blockSize ∧ 0 < size ∧ size ≤ a.blockSize / 4 ∧
        ∃ a₁, Inv (a₁, gs) ∧ a₁.owned = a.owned ∧ a₁.blockSize = a.blockSize ∧
          a.getMemory size (2 ^ k) answer = (a₁.makeNewBlock (2 ^ k) answer).bind fun a₂ =>
            if size ≤ a₂.remaining then .ok (a₂.bump size) else .error .notEnoughRemaining := by
  rcases getMemory_outcome h.shape.blockSize size k answer with
    ⟨rfl, hrequest, hres⟩ | ⟨hpos, hrequest, n, hn, hroom, hdvd, hres⟩ | ⟨hbig, hrequest, hres⟩ |
    ⟨hpos, hsmall, hrequest, n, hn, hres⟩
  · exact .inl ⟨hrequest, 0, a, hres, h.null_grant _⟩
  · exact .inl ⟨hrequest, _, _, hres, (h.skip hn).bump hpos hroom hdvd⟩
  · exact .inr (.inl ⟨hrequest, Nat.zero_lt_of_lt hbig, hres⟩)
  · exact .inr (.inr ⟨hrequest, hpos, hsmall, a.skip n, h.skip hn, rfl, rfl, hres⟩)

/-- A request that fits is served, if there is memory. -/
theorem getMemory_inv (h : Inv (a, gs)) (hk : k ≤ 20)
    (hfits : Fits (a, gs) (.getMemory size (2 ^ k) answer)) :
    a.getMemory size (2 ^ k) answer = .error .outOfMemory ∨
      ∃ address a', a.getMemory size (2 ^ k) answer = .ok (address, a') ∧
        Inv (a', ⟨size, 2 ^ k, address⟩ :: gs) := by
  rcases getMemory_cases h size k answer with
    ⟨-, address, a', hres, hinv⟩ | ⟨hrequest, hpos, hres⟩ |
    ⟨hrequest, hpos, hsmall, a₁, hinv, howned, hblockSize, hres⟩
  · exact .inr ⟨address, a', hres, hinv⟩
  · obtain ⟨j, hj, hadjusted, hblock⟩ := allocNewBlock_spec a hk size answer
    have hfit := hfits size hrequest
    rw [hadjusted] at hfit
    rw [hres]
    rcases hblock with ⟨herror, -⟩ | ⟨b, hok, hfresh, hsize, -, hdvd, hanswer⟩
    · exact .inl (by rw [herror]; rfl)
    · refine .inr ⟨b.mem, a.addBlock b, by rw [hok]; rfl, h.give hfresh hpos ?_ hdvd⟩
      rw [hsize]
      exact adjustedBlockSize_of_lt (hfit.resolve_right hanswer)
  · obtain ⟨j, hj, hadjusted, hblock⟩ := makeNewBlock_spec a₁ hk answer
    have hfit := hfits a.blockSize hrequest
    rw [hadjusted] at hfit
    rw [howned, hblockSize] at hblock
    rw [hres]
    rcases hblock with ⟨herror, -⟩ | ⟨b, hok, hfresh, hsize, hdvd, hanswer⟩
    · exact .inl (by rw [herror]; rfl)
    · have hroom : size ≤ b.size := by
        have hle := adjustedBlockSize_of_lt (hfit.resolve_right hanswer)
        omega
      refine .inr ⟨_, _, ?_, (hinv.refill hfresh).bump hpos hroom hdvd⟩
      rw [hok]
      exact if_pos hroom

/-- A request that does not fit gets a region outside of all blocks, or fails a `CHECK`. -/
theorem getMemory_not_fits (h : Inv (a, gs)) (hk : k ≤ 20) (hfits : ¬ Fits (a, gs) (.getMemory size (2 ^ k) answer)) :
    a.getMemory size (2 ^ k) answer = .error .notEnoughRemaining ∨
      ∃ address a', a.getMemory size (2 ^ k) answer = .ok (address, a') ∧
        ¬ Sound (a', ⟨size, 2 ^ k, address⟩ :: gs) := by
  simp only [Fits, not_forall, not_or] at hfits
  obtain ⟨asked, hasked, hoverflow, hmalloc⟩ := hfits
  rcases getMemory_cases h size k answer with
    ⟨hrequest, -⟩ | ⟨hrequest, hpos, hres⟩ | ⟨hrequest, hpos, -, a₁, hinv, howned, hsame, hres⟩
  · rw [hrequest] at hasked
    cases hasked
  · obtain rfl : size = asked := Option.some.inj (hrequest.symm.trans hasked)
    obtain ⟨j, hj, hadjusted, hblock⟩ := allocNewBlock_spec a hk size answer
    rw [hadjusted] at hoverflow hmalloc
    rcases hblock with ⟨-, hanswer⟩ | ⟨b, hok, hfresh, -, hdvd, -, -⟩
    · exact absurd hanswer hmalloc
    · refine .inr ⟨b.mem, a.addBlock b, by rw [hres, hok]; rfl, fun hsound => ?_⟩
      -- the block starts at 2 ^ j at least, and less than that is missing from the size to 2 ^ 64
      obtain ⟨c, hc, -, hstop⟩ := hsound.inside _ List.mem_cons_self hfresh.mem.ne'
      have hbound := ((h.shape.addBlock hfresh).blocks c hc).2
      have hmem := Nat.le_of_dvd hfresh.mem hdvd
      have hpadding : padding size (2 ^ j) < 2 ^ j := padding_lt
      have hstop' : b.mem + size ≤ c.mem + c.size := hstop
      omega
  · obtain rfl : a.blockSize = asked := Option.some.inj (hrequest.symm.trans hasked)
    obtain ⟨j, hj, hadjusted, hblock⟩ := makeNewBlock_spec a₁ hk answer
    rw [hadjusted] at hoverflow hmalloc
    rw [howned, hsame] at hblock
    rcases hblock with ⟨-, hanswer⟩ | ⟨b, hok, -, hzero, -, -⟩
    · exact absurd hanswer hmalloc
    · rw [adjustedBlockSize_of_not_lt h.shape.blockSize_lt hj hoverflow] at hzero
      refine .inl ?_
      rw [hres, hok]
      exact if_neg (show ¬ size ≤ b.size by omega)

end Requests

/-! ### Operations -/

/-- `Reset` carves the first block again. -/
theorem reset_inv {a : Arena} (h : Shape a) : ∃ a', a.reset = .ok a' ∧ Inv (a', []) := by
  obtain ⟨b₀, -, hsize, hhead, howned, hshape⟩ := h.freeBlocks
  have hblockSize := h.blockSize
  rw [Arena.reset]
  dsimp only
  rw [hhead, show kDefaultAlignment = 2 ^ 3 from rfl]
  rcases satisfyAlignment_spec { a.freeBlocks with freestart := b₀.mem, remaining := b₀.size } 3 with
    ⟨-, -, hlt⟩ | ⟨n, hyes, hn, -, -⟩
  · have hlt' : b₀.size < 2 ^ 3 := hlt
    omega
  · rw [hyes]
    refine ⟨_, rfl, ⟨hshape.blockSize, hshape.length, hshape.first, hshape.alloced_pos, hshape.alloced_le,
      hshape.overflow, hshape.blocks⟩, ?_, by simp, by simp⟩
    have hn' : n ≤ b₀.size := hn
    have hstart : b₀.span.start ≤ (b₀.span.drop n).start := Nat.le_add_right ..
    have hblocks : a.freeBlocks.owned.map AllocatedBlock.span = [b₀.span] := by
      rw [howned]
      rfl
    have hpool := Pool.valid_start hstart (Span.stop_drop hn')
    rw [← hblocks] at hpool
    exact hpool

theorem new_inv {blockSize answer : ℕ} (hblock : 8 < blockSize)
    (hanswer : malloc [] blockSize 1 answer ≠ 0) :
    ∃ a, new blockSize answer = .ok a ∧ Inv (a, []) := by
  have hgood : 0 < answer ∧ 1 ∣ answer ∧ answer + blockSize ≤ 2 ^ 64 ∧
      ∀ b ∈ ([] : List AllocatedBlock), b.span.Apart ⟨answer, blockSize⟩ := by
    by_contra hno
    exact hanswer (if_neg hno)
  have hmalloc : malloc [] blockSize 1 answer = answer := if_pos hgood
  rw [new, hmalloc]
  refine reset_inv ⟨hblock, rfl, rfl, le_rfl, (by decide : 1 ≤ 16), fun _ => rfl, ?_⟩
  simpa [Arena.owned] using ⟨hgood.1, hgood.2.2.1⟩

section Step

variable {s : State} {op : Op}

theorem step_inv (h : Inv s) (hop : op.WellFormed) (hfits : Fits s op) :
    Ends Inv (· = .outOfMemory) (step s op) := by
  cases op with
  | reset =>
    obtain ⟨a', hres, hinv⟩ := reset_inv h.shape
    rw [step, hres]
    exact hinv
  | getMemory size alignment answer =>
    obtain ⟨-, k, hk, rfl⟩ := hop
    rw [step]
    rcases getMemory_inv h hk hfits with herror | ⟨address, a', hres, hinv⟩
    · rw [herror]
      rfl
    · rw [hres]
      exact hinv

theorem step_not_fits (h : Inv s) (hop : op.WellFormed) (hfits : ¬ Fits s op) :
    ¬ Ends Sound (· = .outOfMemory) (step s op) := by
  cases op with
  | reset => exact absurd trivial hfits
  | getMemory size alignment answer =>
    obtain ⟨-, k, hk, rfl⟩ := hop
    rw [step]
    rcases getMemory_not_fits h hk hfits with herror | ⟨address, a', hres, hunsound⟩
    · rw [herror]
      exact fun hends => Failure.noConfusion hends
    · rw [hres]
      exact hunsound

end Step

/-- **An arena is sound.**  It is made, and then it is sound all the time exactly when no block it asks the
allocator for, and gets, is so large that its padding overflows. -/
theorem arena_sound_iff {blockSize answer : ℕ} {ops : List Op} (hblock : 8 < blockSize)
    (hanswer : malloc [] blockSize 1 answer ≠ 0) (hops : ∀ op ∈ ops, op.WellFormed) :
    ∃ a, new blockSize answer = .ok a ∧
      (AlwaysSound (a, []) ops ↔ ∀ p ∈ steps step (a, []) ops, Fits p.1 p.2) := by
  obtain ⟨a, hnew, hinv⟩ := new_inv hblock hanswer
  refine ⟨a, hnew, alwaysEnds_iff_guarded (fun s h => h.sound) ?_ ?_ hinv hops⟩
  · exact fun s op h hop hfits => step_inv h hop hfits
  · exact fun s op h hop hfits => step_not_fits h hop hfits

theorem arena_sound_sixtyFour : ∃ a, new 64 4100 = .ok a ∧
    (AlwaysSound (a, []) [.getMemory 12 4 0, .getMemory 60 16 8192, .reset] ↔
      ∀ p ∈ steps step (a, []) [.getMemory 12 4 0, .getMemory 60 16 8192, .reset], Fits p.1 p.2) :=
  arena_sound_iff (by decide) (by decide) (by
    simp only [List.forall_mem_cons, Op.WellFormed]
    exact ⟨⟨by decide, 2, by decide, rfl⟩, ⟨by decide, 4, by decide, rfl⟩, trivial, by simp⟩)

/-- With blocks of 64 bytes, 2⁶⁴ - 1 bytes aligned to 16 come to a block of no bytes. -/
theorem not_alwaysSound_wrap :
    malloc [] 64 1 4096 ≠ 0 ∧ (Op.getMemory (2 ^ 64 - 1) 16 8192).WellFormed ∧
      ∃ a, new 64 4096 = .ok a ∧ ¬ AlwaysSound (a, []) [.getMemory (2 ^ 64 - 1) 16 8192] := by
  refine ⟨by decide, ⟨by decide, 4, by decide, rfl⟩, _, rfl, fun h => ?_⟩
  have hends := h _ List.prefix_rfl
  have hsound : Sound _ := hends
  obtain ⟨b, hb, -, hstop⟩ := hsound.inside _ List.mem_cons_self (by decide)
  revert hstop
  revert b
  decide

end LearnNetlib.Arenas
