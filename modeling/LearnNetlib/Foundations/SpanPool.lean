import Mathlib.Data.List.Pairwise
import Mathlib.Order.Nat
import Mathlib.Tactic.Common

/-!
# Handing out spans of memory from blocks

* `Span` — a stretch of addresses, with `Inside` and `Apart`;
* `Pool` — blocks, what is left of the one being carved, and what has been given out;
* `Pool.Valid` — the blocks lie apart, the rest is the end of a block, and what has been given out lies
  in the blocks, apart from each other and from the rest;
* `Valid.skip`, `Valid.carve`, `Valid.give`, `Valid.refill`, `valid_start` — the rules: each way to go on
  keeps a pool valid.
-/

namespace LearnNetlib.SpanPool

/-! ### Spans -/

/-- `size` addresses from `start` on. -/
structure Span where
  start : ℕ
  size : ℕ
  deriving Repr, DecidableEq

namespace Span

/-- The first address behind it. -/
def stop (r : Span) : ℕ := r.start + r.size

/-- All of `r` lies in `s`. -/
def Inside (r s : Span) : Prop := s.start ≤ r.start ∧ r.stop ≤ s.stop

/-- One ends before the other begins. -/
def Apart (r s : Span) : Prop := r.stop ≤ s.start ∨ s.stop ≤ r.start

instance (r s : Span) : Decidable (r.Inside s) := inferInstanceAs (Decidable (_ ∧ _))

instance (r s : Span) : Decidable (r.Apart s) := inferInstanceAs (Decidable (_ ∨ _))

variable {r s t : Span}

theorem Apart.symm (h : r.Apart s) : s.Apart r := Or.symm h

theorem Inside.refl (r : Span) : r.Inside r := ⟨le_rfl, le_rfl⟩

theorem Inside.trans (h : r.Inside s) (h' : s.Inside t) : r.Inside t :=
  ⟨h'.1.trans h.1, h.2.trans h'.2⟩

/-- What lies in a span is apart from what the span is apart from. -/
theorem Apart.of_inside (h : s.Apart t) (hr : r.Inside s) : r.Apart t :=
  h.imp hr.2.trans fun hts => hts.trans hr.1

/-- The first `n` addresses. -/
def take (r : Span) (n : ℕ) : Span := ⟨r.start, n⟩

/-- The others. -/
def drop (r : Span) (n : ℕ) : Span := ⟨r.start + n, r.size - n⟩

variable {n : ℕ}

theorem take_inside (hn : n ≤ r.size) : (r.take n).Inside r :=
  ⟨le_rfl, Nat.add_le_add_left hn r.start⟩

theorem stop_drop (hn : n ≤ r.size) : (r.drop n).stop = r.stop := by
  simp only [stop, drop]
  omega

theorem drop_inside (hn : n ≤ r.size) : (r.drop n).Inside r :=
  ⟨Nat.le_add_right r.start n, (stop_drop hn).le⟩

theorem take_apart_drop (r : Span) (n : ℕ) : (r.take n).Apart (r.drop n) := .inl le_rfl

end Span

/-! ### Pools -/

/-- Blocks, what is left of one of them, and what has been given out. -/
structure Pool where
  blocks : List Span
  rest : Span
  given : List Span

namespace Pool

structure Valid (p : Pool) : Prop where
  blocks : p.blocks.Pairwise Span.Apart
  rest : ∃ b ∈ p.blocks, b.start ≤ p.rest.start ∧ p.rest.stop = b.stop
  inside : ∀ g ∈ p.given, ∃ b ∈ p.blocks, g.Inside b
  given : p.given.Pairwise Span.Apart
  fresh : ∀ g ∈ p.given, g.Apart p.rest

variable {p : Pool} {n : ℕ}

/-- One block, of which the end is left, and nothing given out. -/
theorem valid_start {b rest : Span} (hstart : b.start ≤ rest.start) (hstop : rest.stop = b.stop) :
    Valid ⟨[b], rest, []⟩ :=
  ⟨List.pairwise_singleton .., ⟨b, List.mem_singleton_self b, hstart, hstop⟩, by simp, .nil, by simp⟩

/-- Some of the rest is wasted. -/
theorem Valid.skip (h : p.Valid) (hn : n ≤ p.rest.size) : Valid { p with rest := p.rest.drop n } := by
  obtain ⟨b, hb, hstart, hstop⟩ := h.rest
  refine ⟨h.blocks, ⟨b, hb, hstart.trans (Nat.le_add_right ..), (Span.stop_drop hn).trans hstop⟩,
    h.inside, h.given, fun g hg => ?_⟩
  exact ((h.fresh g hg).symm.of_inside (Span.drop_inside hn)).symm

/-- Some of the rest is given out. -/
theorem Valid.carve (h : p.Valid) (hn : n ≤ p.rest.size) :
    Valid { p with rest := p.rest.drop n, given := p.rest.take n :: p.given } := by
  have hskip := h.skip hn
  obtain ⟨b, hb, hstart, hstop⟩ := h.rest
  refine ⟨h.blocks, hskip.rest, ?_, ?_, ?_⟩
  · refine List.forall_mem_cons.mpr ⟨⟨b, hb, ?_⟩, h.inside⟩
    exact (Span.take_inside hn).trans ⟨hstart, hstop.le⟩
  · refine List.pairwise_cons.mpr ⟨fun g hg => ?_, h.given⟩
    exact (h.fresh g hg).symm.of_inside (Span.take_inside hn)
  · exact List.forall_mem_cons.mpr ⟨Span.take_apart_drop p.rest n, hskip.fresh⟩

section NewBlock

variable {b : Span} (h : p.Valid) (hb : ∀ b' ∈ p.blocks, b'.Apart b)

include h hb

theorem Valid.pairwise_blocks : (p.blocks ++ [b]).Pairwise Span.Apart :=
  List.pairwise_append.mpr
    ⟨h.blocks, List.pairwise_singleton .., fun b' hb' _ hc => List.mem_singleton.mp hc ▸ hb b' hb'⟩

theorem Valid.given_apart : ∀ g ∈ p.given, g.Apart b := fun g hg =>
  let ⟨b', hb', hin⟩ := h.inside g hg
  (hb b' hb').of_inside hin

/-- A new block is given out. -/
theorem Valid.give (hn : n ≤ b.size) :
    Valid ⟨p.blocks ++ [b], p.rest, b.take n :: p.given⟩ := by
  have hblocks : ∀ b' ∈ p.blocks, b' ∈ p.blocks ++ [b] := fun b' hb' => List.mem_append_left _ hb'
  obtain ⟨c, hc, hstart, hstop⟩ := h.rest
  refine ⟨h.pairwise_blocks hb, ⟨c, hblocks c hc, hstart, hstop⟩, ?_, ?_, ?_⟩
  · refine List.forall_mem_cons.mpr ⟨⟨b, by simp, Span.take_inside hn⟩, fun g hg => ?_⟩
    obtain ⟨b', hb', hin⟩ := h.inside g hg
    exact ⟨b', hblocks b' hb', hin⟩
  · refine List.pairwise_cons.mpr ⟨fun g hg => ?_, h.given⟩
    exact ((h.given_apart hb g hg).symm).of_inside (Span.take_inside hn)
  · refine List.forall_mem_cons.mpr ⟨?_, h.fresh⟩
    have hrest : p.rest.Apart b := (hb c hc).of_inside ⟨hstart, hstop.le⟩
    exact hrest.symm.of_inside (Span.take_inside hn)

/-- A new block is carved from now on. -/
theorem Valid.refill : Valid ⟨p.blocks ++ [b], b, p.given⟩ := by
  refine ⟨h.pairwise_blocks hb, ⟨b, by simp, le_rfl, rfl⟩, fun g hg => ?_, h.given, h.given_apart hb⟩
  obtain ⟨b', hb', hin⟩ := h.inside g hg
  exact ⟨b', List.mem_append_left _ hb', hin⟩

end NewBlock

end Pool

end LearnNetlib.SpanPool
