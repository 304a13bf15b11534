import LearnNetlib.Table.BlockCursor

/-!
# From `BlockBuilder` to `Block` and back

* **`block_round_trip`** — what a builder has been fed is what every iterator of its block shows,
  and the block is as long as the builder said.
-/

namespace LearnNetlib.Table

open Runs SortedCursor

/-- **A block gives back what it was built from.**  Increasing keys fed to a new or reset builder fail
no assertion, and `CurrentSizeEstimate` is the size of the block that `Finish` returns.  If that is
below `2 ^ 32`, the block opens, and after any calls whatever a scan yields exactly the entries and
`Seek` finds the first one not below the target. -/
theorem block_round_trip {options : Options} (hinterval : 1 ≤ options.blockRestartInterval)
    {builder : BlockBuilder}
    (hstart : BlockBuilder.new options = .ok builder ∨
      ∃ used : BlockBuilder, used.options = options ∧ used.reset = builder)
    {es : List Entry} (hsorted : Sorted es) :
    ∃ b, builder.addAll es = .ok b ∧ b.finish.buffer.length = b.currentSizeEstimate ∧
      (b.finish.buffer.length < 2 ^ 32 → ∀ fuel, 2 ^ 32 ≤ fuel → ∃ bi,
        openBlock b.finish.buffer = .ok bi ∧
        ∀ calls, ∃ it, run (iteratorStep (BlockIterator.ops fuel)) bi calls
            = .ok ((specRun (cursorSpec es .ok) [] calls).1, it) ∧
          (∀ n, es.length < n → ∃ it', scan (BlockIterator.ops fuel) n it = .ok (es, it')) ∧
          ∀ t, ∃ it', iteratorStep (BlockIterator.ops fuel) it (.seek t)
            = .ok ((es.find? fun e => decide (t ≤ e.1), .ok), it')) := by
  have hempty : Builds builder [] [0] := by
    rcases hstart with hnew | ⟨used, rfl, rfl⟩
    · obtain ⟨b, hb, -, hbuilds⟩ := builds_new hinterval
      rw [hb, Except.ok.injEq] at hnew
      rwa [← hnew]
    · exact builds_reset hinterval
  obtain ⟨b, rs, points, hall, hbuilds, hrs⟩ := addAll_builds hempty hsorted
  rw [List.map_nil, List.nil_append] at hrs
  refine ⟨b, hall, b.finish_length, ?_⟩
  intro hlt fuel hfuel
  rw [finish_buffer hbuilds] at hlt ⊢
  have hfits : Fits rs points := ⟨hbuilds.shape, hlt⟩
  obtain ⟨it₀, hopen, hat₀⟩ := hfits.openBlock_eq
  have hcursor := hfits.isCursor (lt_of_lt_of_le hlt hfuel)
  rw [hrs] at hcursor
  refine ⟨_, hopen, fun calls => ?_⟩
  obtain ⟨it, rest, hrun, hat⟩ := hcursor.run_shows ⟨it₀, rfl, hat₀⟩ calls
  exact ⟨it, hrun, fun n hn => hcursor.scan_eq hat hn, hcursor.seek_shows hat⟩

/-- Two entries that share a prefix, in a block with restarts at every second key. -/
theorem block_round_trip_two :
    ∃ b bi it it', (BlockBuilder.new { blockRestartInterval := 2 }).bind
        (·.addAll [([1, 1], [7]), ([1, 2], [8])]) = .ok b ∧
      openBlock b.finish.buffer = .ok bi ∧
      run (iteratorStep (BlockIterator.ops (2 ^ 32))) bi [.seek [1, 2], .next]
        = .ok ([(some ([1, 2], [8]), .ok), (none, .ok)], it) ∧
      scan (BlockIterator.ops (2 ^ 32)) 3 it = .ok ([([1, 1], [7]), ([1, 2], [8])], it') := by
  have hsorted : Sorted [(([1, 1] : Bytes), ([7] : Bytes)), ([1, 2], [8])] := by
    simp only [Sorted, List.pairwise_cons, List.mem_singleton, forall_eq, List.not_mem_nil,
      false_imp_iff, implies_true, List.Pairwise.nil, and_true]
    decide
  have hinterval : 1 ≤ ({ blockRestartInterval := 2 } : Options).blockRestartInterval := by decide
  obtain ⟨b, hall, -, hread⟩ := block_round_trip hinterval (.inl rfl) hsorted
  have hlen : b.finish.buffer.length < 2 ^ 32 := by
    cases hall
    decide
  obtain ⟨bi, hopen, hruns⟩ := hread hlen _ le_rfl
  obtain ⟨it, hrun, hscan, -⟩ := hruns [.seek [1, 2], .next]
  obtain ⟨it', hscan⟩ := hscan 3 (by decide)
  exact ⟨b, bi, it, it', hall, hopen, hrun, hscan⟩

end LearnNetlib.Table
