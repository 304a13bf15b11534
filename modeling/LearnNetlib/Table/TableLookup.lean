import LearnNetlib.Table.WideKeys

/-!
# Lookups in a table

* `internalGet_eq` — `InternalGet` looks in one block;
* **`internalGet_least`** — in a table written from increasing keys it finds every key that is there,
  and shows nothing but the first entry not below the key;
* `approximateOffsetOf_eq` — `ApproximateOffsetOf` is the position of the block the index points at;
* **`approximateOffsetOf_monotone`** — it grows with the key, from the blocks of the stored keys to the
  metaindex block behind all of them.
-/

namespace LearnNetlib.Table

open Runs SortedCursor

/-! ### `InternalGet` -/

section

variable {snappy : Snappy} {t : Rep} {fuel : ℕ} {idx : List Entry} {f : Bytes → List Entry}
  {st : Bytes → Status}

/-- **The one block that the index chooses.** -/
theorem internalGet_eq (h : Serves snappy t fuel idx f st) (hst : ∀ e ∈ idx, st e.2 = .ok) (k : Bytes) :
    t.internalGet snappy fuel k = .ok (.ok, (lookup f k idx).toList) := by
  obtain ⟨bi, hnew, hat⟩ := h.index
  have hindex := isCursor_cursorAt (BlockIterator.ops fuel) idx .ok
  obtain ⟨iiter, hseek, hat'⟩ := hindex.seek hat k
  have hstatus := hindex.status hat'
  rw [Rep.internalGet, hnew, Access.ok_bind, hseek, Access.ok_bind, lookup]
  cases hrest : seekTo k idx with
  | nil =>
    rw [hrest] at hat'
    have hinvalid : ¬ (BlockIterator.ops fuel).valid iiter = true :=
      fun hv => (hindex.valid hat').mp hv rfl
    rw [if_neg hinvalid]
    simp only [Access.pure_eq, Access.ok_bind, hstatus]
    rfl
  | cons b rest =>
    rw [hrest] at hat'
    obtain ⟨-, hvalue⟩ := hindex.entry hat'
    have hb : b ∈ idx := (seekTo_suffix k idx).subset (by rw [hrest]; exact List.mem_cons_self)
    obtain ⟨di, drest, hreader, hdata⟩ := h.block b hb
    have hblock := isCursor_cursorAt (BlockIterator.ops fuel) (f b.2) (st b.2)
    obtain ⟨blockIter, hseek', hdata'⟩ := hblock.seek hdata k
    have hseen := hblock.seen_eq hdata'
    rw [if_pos ((hindex.valid hat').mpr (List.cons_ne_nil b rest)), hvalue]
    simp only [Access.ok_bind, hreader, hseek', hseen, hst b hb, hstatus, Access.pure_eq]
    rfl

end

/-- **Looking up a key.**  A table written by any calls of `Add` and `Flush` with increasing keys and a
`Finish`, all of whose blocks are smaller than `2 ^ 32` bytes: `InternalGet` returns OK and calls the
saver at most once; a key that was added is found with its value, and whatever is passed to the saver
is the first entry not below the key. -/
theorem internalGet_least {snappy : Snappy} (hsnappy : snappy.Lawful) (options : Options)
    (hinterval : 1 ≤ options.blockRestartInterval) {out : WritableFile} (hout : out.Addressable)
    (calls : List Call) (hcalls : ∀ c ∈ calls, c.closes = false) (hsorted : Sorted (added calls)) :
    ∃ outs r, buildTable options snappy out (calls ++ [.finish]) = .ok (outs, r) ∧
      (r.status = .ok → (∀ raw ∈ r.encoded, raw.length < 2 ^ 32) →
        ∀ (file : RandomAccessFile) (options' : Options) (fuel : ℕ), file.Stores r.appends.bytes →
          2 ^ 32 ≤ fuel → ∃ t, Rep.openTable snappy options' file r.fileSize = .ok (.ok t) ∧
            ∀ k, ∃ saved, t.internalGet snappy fuel k = .ok (.ok, saved) ∧ saved.length ≤ 1 ∧
              (∀ v, (k, v) ∈ added calls → saved = [(k, v)]) ∧
              ∀ e ∈ saved, e ∈ added calls ∧ k ≤ e.1 ∧
                ∀ e' ∈ added calls, k ≤ e'.1 → e.1 ≤ e'.1) := by
  obtain ⟨outs, r, hbuild, hwritten⟩ :=
    buildTable_finished snappy options hinterval hout calls hcalls hsorted
  refine ⟨outs, r, hbuild, fun hok hsmall file options' fuel hfile hfuel => ?_⟩
  obtain ⟨hlog, hsize, c, hfinished, -⟩ := hwritten hok
  obtain ⟨t, hopen, ht, -, hindex⟩ :=
    openTable_finished hsnappy hfinished hlog hok hout hfile options' hsize
  obtain ⟨idx, f, st, hserves, hsep, hentries, hst⟩ :=
    serves_finished hsnappy hfinished hlog hok hout hsmall hfile ht hindex hfuel
  rw [← hentries] at hsorted ⊢
  refine ⟨t, hopen, fun k => ⟨_, internalGet_eq hserves hst k, ?_, ?_, ?_⟩⟩
  · cases lookup f k idx with
    | none => exact Nat.zero_le 1
    | some e => exact le_rfl
  · intro v hmem
    rw [lookup_of_mem hsep hsorted hmem, Option.toList_some]
  · intro e he
    exact lookup_least hsep hsorted (Option.mem_toList.mp he)

/-- One entry, written and looked up. -/
theorem internalGet_least_small :
    ∃ outs r t,
      buildTable {} Snappy.identity .roomy [.add [1] [2], .finish] = .ok (outs, r) ∧
      Rep.openTable Snappy.identity {}
        (linuxRandomAccessFile (RegularFile.whole r.appends.bytes)) r.fileSize = .ok (.ok t) ∧
      t.internalGet Snappy.identity (2 ^ 32) [1] = .ok (.ok, [([1], [2])]) := by
  obtain ⟨outs, r, hbuild, hread⟩ := internalGet_least Snappy.identity_lawful {} (by decide)
    WritableFile.roomy_addressable [.add [1] [2]] (by simp [Call.closes])
    (List.pairwise_singleton _ _)
  have hfacts : (buildTable {} Snappy.identity .roomy [.add [1] [2], .finish]).map
      (fun w => (w.2.status, w.2.encoded.all fun raw => decide (raw.length < 2 ^ 32)))
        = .ok (.ok, true) := rfl
  rw [show [Call.add [1] [2], .finish] = [Call.add [1] [2]] ++ [.finish] from rfl, hbuild] at hfacts
  simp only [Except.map, Except.ok.injEq, Prod.mk.injEq, List.all_eq_true, decide_eq_true_eq] at hfacts
  obtain ⟨t, hopen, hget⟩ := hread hfacts.1 hfacts.2 _ {} _
    (linuxRandomAccessFile_serves (RegularFile.whole r.appends.bytes)).stores le_rfl
  obtain ⟨saved, hsaved, -, hfound, -⟩ := hget [1]
  rw [hfound [2] (by simp [added, Call.entries])] at hsaved
  exact ⟨outs, r, t, hbuild, hopen, hsaved⟩

theorem wide_replicate : Wide (List.replicate (2 ^ 32) 0xff) where
  all b hb := List.eq_of_mem_replicate hb
  length := by rw [List.length_replicate, Nat.mod_self]
  ne_nil := List.ne_nil_of_length_pos (by rw [List.length_replicate]; decide)

/-- A key of `2 ^ 32` bytes is stored, and the saver is not called with it. -/
theorem internalGet_loses_key :
    ∃ outs r, buildTable {} Snappy.identity .roomy
        [.add (List.replicate (2 ^ 32) 0xff) [], .finish] = .ok (outs, r) ∧ r.status = .ok ∧
      ∀ (file : RandomAccessFile) (options' : Options) (fuel : ℕ), file.Stores r.appends.bytes →
        0 < fuel → ∃ t, Rep.openTable Snappy.identity options' file r.fileSize = .ok (.ok t) ∧
          t.internalGet Snappy.identity fuel (List.replicate (2 ^ 32) 0xff) = .ok (.ok, []) := by
  obtain ⟨outs, r, c, b, hbuild, hok, -, -, -, hread⟩ := wide_key_lost Snappy.identity_lawful
    (show 1 ≤ ({} : Options).blockRestartInterval by decide) wide_replicate []
    (by rw [List.length_replicate]; decide) (by rw [List.length_replicate]; decide)
  refine ⟨outs, r, hbuild, hok, fun file options' fuel hfile hfuel => ?_⟩
  obtain ⟨t, hopen, hget, -⟩ := hread file options' fuel hfile hfuel
  exact ⟨t, hopen, hget⟩

/-! ### `ApproximateOffsetOf` -/

/-- Where a lookup of `key` is sent: to a data block, or past them. -/
def Contents.positionOf (c : Contents) (key : Bytes) : ℕ :=
  match seekTo key c.indexed with
  | [] => c.metaindex.position
  | b :: _ => b.2.position

section

variable {snappy : Snappy} {out : WritableFile} {r : TableBuilder} {es : List Entry} {c : Contents}
  {t : Rep} {fuel : ℕ}

/-- **The position of the block that the index points at.** -/
theorem approximateOffsetOf_eq (h : Finished snappy r es c) (hplaced : Placed r c)
    (hmeta : t.metaindexHandle = c.metaindex.handle)
    (hindex : Block.new c.index.raw = .ok t.indexBlock)
    (hsmall : ∀ raw ∈ r.encoded.getLast?, raw.length < 2 ^ 32) (hfuel : 2 ^ 32 ≤ fuel) (key : Bytes) :
    t.approximateOffsetOf fuel key = .ok (UInt64.ofNat (c.positionOf key)) := by
  have hfits : Fits c.index.records c.index.points :=
    ⟨h.indexStored.shape, hsmall _ hplaced.index⟩
  obtain ⟨bi, hopen, hat⟩ := hfits.openBlock_cursorAt hfuel
  rw [openBlock, show Block.new (blockBytes c.index.records c.index.points) = _ from hindex,
    Access.ok_bind] at hopen
  rw [show c.index.records.map Record.entry = _ from h.indexEntries] at hat
  have hcursor := isCursor_cursorAt (BlockIterator.ops fuel) (Layout.indexEntries c.indexed) .ok
  obtain ⟨it, hseek, hat'⟩ := hcursor.seek hat key
  have hmap : seekTo key (Layout.indexEntries c.indexed)
      = (seekTo key c.indexed).map fun b => (b.1, b.2.handle.encoding) :=
    seekTo_map (fun b : StoredBlock => b.handle.encoding) key c.indexed
  rw [hmap] at hat'
  rw [Rep.approximateOffsetOf, hopen, Access.ok_bind, hseek, Access.ok_bind, Contents.positionOf]
  cases hrest : seekTo key c.indexed with
  | nil =>
    rw [hrest] at hat'
    have hinvalid : ¬ (BlockIterator.ops fuel).valid it = true :=
      fun hv => (hcursor.valid hat').mp hv rfl
    rw [if_neg hinvalid, hmeta]
    rfl
  | cons b rest =>
    rw [hrest, List.map_cons] at hat'
    obtain ⟨-, hvalue⟩ := hcursor.entry hat'
    have hdecode := BlockHandle.decodeFrom_encoding b.2.handle []
    rw [List.append_nil] at hdecode
    rw [if_pos ((hcursor.valid hat').mpr (List.cons_ne_nil _ _)), hvalue, Access.ok_bind, hdecode]
    rfl

/-- Every position is one of the file. -/
theorem positionOf_lt (h : Finished snappy r es c) (hlog : Logged out r) (hok : r.status = .ok)
    (hout : out.Addressable) (key : Bytes) : c.positionOf key < 2 ^ 64 := by
  have hlt := hlog.addressable hout hok
  rw [Contents.positionOf]
  cases hrest : seekTo key c.indexed with
  | nil =>
    have hend := h.metaindexStored.end_le
    dsimp only
    omega
  | cons b rest =>
    have hb : b ∈ c.indexed := (seekTo_suffix key c.indexed).subset (by simp [hrest])
    have hend := (h.stored b hb).end_le
    dsimp only
    omega

/-- The further the key, the further the block. -/
theorem positionOf_monotone (h : Finished snappy r es c) (hplaced : Placed r c) :
    Monotone c.positionOf := by
  intro k k' hle
  have hsuffix := seekTo_suffix_of_le hle c.indexed
  have hordered : (seekTo k c.indexed).Pairwise (·.2.position < ·.2.position) :=
    (List.pairwise_map.mp h.ordered).sublist (seekTo_suffix k c.indexed).sublist
  have hmem := (seekTo_suffix k c.indexed).subset
  rw [Contents.positionOf, Contents.positionOf]
  cases hrest : seekTo k c.indexed with
  | nil =>
    rw [hrest, List.suffix_nil] at hsuffix
    rw [hsuffix]
  | cons b rest =>
    rw [hrest] at hsuffix hordered hmem
    cases hrest' : seekTo k' c.indexed with
    | nil =>
      have hbehind := hplaced.metaindex b (hmem List.mem_cons_self)
      dsimp only
      omega
    | cons b' rest' =>
      rw [hrest'] at hsuffix
      rcases List.mem_cons.mp (hsuffix.subset List.mem_cons_self) with rfl | hlater
      · exact le_rfl
      · exact ((List.pairwise_cons.mp hordered).1 b' hlater).le

/-- A stored key is sent to the block it is in. -/
theorem positionOf_stored (h : Finished snappy r es c) {b : Bytes × StoredBlock} (hb : b ∈ c.indexed)
    {e : Entry} (he : e ∈ b.2.entries) : c.positionOf e.1 = b.2.position := by
  have hsep := h.separated
  have hseek : ∃ rest, seekTo e.1 c.indexed = b :: rest := by
    generalize c.indexed = indexed at hb hsep
    induction indexed with
    | nil => exact absurd hb (by simp)
    | cons d indexed ih =>
      obtain ⟨hle, hlt, hrest⟩ := hsep
      rcases List.mem_cons.mp hb with rfl | hb
      · exact ⟨indexed, seekTo_cons_of_le (hle e he) indexed⟩
      · rw [seekTo_cons_of_lt (hlt b hb e he)]
        exact ih hb hrest
  obtain ⟨rest, hseek⟩ := hseek
  rw [Contents.positionOf, hseek]

/-- A key above all separators is sent to the metaindex block. -/
theorem positionOf_above {key : Bytes} (h : ∀ b ∈ c.indexed, b.1 < key) :
    c.positionOf key = c.metaindex.position := by
  have hseek := seekTo_append_of_lt h []
  rw [List.append_nil, seekTo_nil] at hseek
  rw [Contents.positionOf, hseek]

end

/-- **Offsets grow with the keys.**  A table written by any calls of `Add` and `Flush` with increasing
keys and a `Finish`, whose index block is smaller than `2 ^ 32` bytes: `ApproximateOffsetOf` never
decreases; a stored key has the offset of the data block that contains it, and a key above the index
keys that of the metaindex block, which lies behind every data block and its trailer. -/
theorem approximateOffsetOf_monotone {snappy : Snappy} (hsnappy : snappy.Lawful) (options : Options)
    (hinterval : 1 ≤ options.blockRestartInterval) {out : WritableFile} (hout : out.Addressable)
    (calls : List Call) (hcalls : ∀ c ∈ calls, c.closes = false) (hsorted : Sorted (added calls)) :
    ∃ outs r, buildTable options snappy out (calls ++ [.finish]) = .ok (outs, r) ∧
      (r.status = .ok → (∀ raw ∈ r.encoded.getLast?, raw.length < 2 ^ 32) →
        ∃ c, Finished snappy r (added calls) c ∧
          (∀ b ∈ c.indexed,
            b.2.position + b.2.stored.length + kBlockTrailerSize ≤ c.metaindex.position) ∧
          ∀ (file : RandomAccessFile) (options' : Options) (fuel : ℕ),
            file.Stores r.appends.bytes → 2 ^ 32 ≤ fuel →
            ∃ t, Rep.openTable snappy options' file r.fileSize = .ok (.ok t) ∧
              ∃ offset : Bytes → UInt64, (∀ key, t.approximateOffsetOf fuel key = .ok (offset key)) ∧
                (∀ k k', k ≤ k' → offset k ≤ offset k') ∧
                (∀ b ∈ c.indexed, ∀ e ∈ b.2.entries, (offset e.1).toNat = b.2.position) ∧
                ∀ key, (∀ b ∈ c.indexed, b.1 < key) →
                  (offset key).toNat = c.metaindex.position) := by
  obtain ⟨outs, r, hbuild, hwritten⟩ :=
    buildTable_finished snappy options hinterval hout calls hcalls hsorted
  refine ⟨outs, r, hbuild, fun hok hsmall => ?_⟩
  obtain ⟨hlog, hsize, c, hfinished, hplaced⟩ := hwritten hok
  refine ⟨c, hfinished, hplaced.metaindex, fun file options' fuel hfile hfuel => ?_⟩
  obtain ⟨t, hopen, -, hmeta, hindex⟩ :=
    openTable_finished hsnappy hfinished hlog hok hout hfile options' hsize
  have hoffset : ∀ key, (UInt64.ofNat (c.positionOf key)).toNat = c.positionOf key := by
    intro key
    rw [UInt64.toNat_ofNat', Nat.mod_eq_of_lt (positionOf_lt hfinished hlog hok hout key)]
  refine ⟨t, hopen, fun key => UInt64.ofNat (c.positionOf key),
    approximateOffsetOf_eq hfinished hplaced hmeta hindex hsmall hfuel, ?_, ?_, ?_⟩
  · intro k k' hle
    rw [UInt64.le_iff_toNat_le, hoffset, hoffset]
    exact positionOf_monotone hfinished hplaced hle
  · intro b hb e he
    rw [hoffset, positionOf_stored hfinished hb he]
  · intro key hkey
    rw [hoffset, positionOf_above hkey]

/-- One entry, whose block begins the file. -/
theorem approximateOffsetOf_monotone_small :
    ∃ outs r t offset,
      buildTable {} Snappy.identity .roomy [.add [1] [2], .finish] = .ok (outs, r) ∧
      Rep.openTable Snappy.identity {}
        (linuxRandomAccessFile (RegularFile.whole r.appends.bytes)) r.fileSize = .ok (.ok t) ∧
      t.approximateOffsetOf (2 ^ 32) [1] = .ok offset ∧
      ∃ offset', t.approximateOffsetOf (2 ^ 32) [3] = .ok offset' ∧ offset ≤ offset' := by
  obtain ⟨outs, r, hbuild, hread⟩ := approximateOffsetOf_monotone Snappy.identity_lawful {} (by decide)
    WritableFile.roomy_addressable [.add [1] [2]] (by simp [Call.closes])
    (List.pairwise_singleton _ _)
  have hfacts : (buildTable {} Snappy.identity .roomy [.add [1] [2], .finish]).map
      (fun w => (w.2.status, w.2.encoded.getLast?.all fun raw => decide (raw.length < 2 ^ 32)))
        = .ok (.ok, true) := rfl
  rw [show [Call.add [1] [2], .finish] = [Call.add [1] [2]] ++ [.finish] from rfl, hbuild] at hfacts
  simp only [Except.map, Except.ok.injEq, Prod.mk.injEq] at hfacts
  have hsmall : ∀ raw ∈ r.encoded.getLast?, raw.length < 2 ^ 32 := by
    intro raw hraw
    rw [Option.mem_def] at hraw
    simpa [hraw] using hfacts.2
  obtain ⟨c, -, -, hread⟩ := hread hfacts.1 hsmall
  obtain ⟨t, hopen, offset, hoffset, hmono, -⟩ := hread _ {} _
    (linuxRandomAccessFile_serves (RegularFile.whole r.appends.bytes)).stores le_rfl
  exact ⟨outs, r, t, offset [1], hbuild, hopen, hoffset [1], offset [3], hoffset [3],
    hmono [1] [3] (by decide)⟩

/-- A stored key of `2 ^ 32` bytes does not have the offset of its block. -/
theorem approximateOffsetOf_misses_block :
    ∃ outs r c b, buildTable {} Snappy.identity .roomy
        [.add (List.replicate (2 ^ 32) 0xff) [], .finish] = .ok (outs, r) ∧ r.status = .ok ∧
      Finished Snappy.identity r [(List.replicate (2 ^ 32) 0xff, [])] c ∧ b ∈ c.indexed ∧
      (List.replicate (2 ^ 32) 0xff, []) ∈ b.2.entries ∧
      ∀ (file : RandomAccessFile) (options' : Options) (fuel : ℕ), file.Stores r.appends.bytes →
        0 < fuel → ∃ t, Rep.openTable Snappy.identity options' file r.fileSize = .ok (.ok t) ∧
          ∃ offset, t.approximateOffsetOf fuel (List.replicate (2 ^ 32) 0xff) = .ok offset ∧
            offset.toNat ≠ b.2.position := by
  obtain ⟨outs, r, c, b, hbuild, hok, hfinished, hb, hentry, hread⟩ :=
    wide_key_lost Snappy.identity_lawful
      (show 1 ≤ ({} : Options).blockRestartInterval by decide) wide_replicate []
      (by rw [List.length_replicate]; decide) (by rw [List.length_replicate]; decide)
  refine ⟨outs, r, c, b, hbuild, hok, hfinished, hb, hentry, fun file options' fuel hfile hfuel => ?_⟩
  obtain ⟨t, hopen, -, offset, hoffset, hne⟩ := hread file options' fuel hfile hfuel
  exact ⟨t, hopen, offset, hoffset, hne⟩

end LearnNetlib.Table
