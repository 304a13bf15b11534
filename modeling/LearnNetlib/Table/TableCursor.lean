import LearnNetlib.Table.BuilderRuns
import LearnNetlib.Table.Table

/-!
# Tables as cursors

* `readBlock_stored` — a block written is read back;
* `Serves` — a table whose index is intact and whose blocks are cursors or errors;
* **`table_scan_bad_blocks`** — every scan of such a table delivers the entries of the good blocks, and
  a bad block is reported at its end and never forgotten;
* **`table_refines_cursor`** — what any run of `Add` and `Flush` with increasing keys and a `Finish`
  have written opens as a table whose iterator is a cursor over the entries added.
-/

namespace LearnNetlib.Table

open Runs SortedCursor

/-! ### Blocks as cursors -/

/-- A well-formed block opens as a cursor over its entries. -/
theorem Fits.openBlock_cursorAt {rs : List Record} {points : List ℕ} (h : Fits rs points) {fuel : ℕ}
    (hfuel : 2 ^ 32 ≤ fuel) :
    ∃ bi, openBlock (blockBytes rs points) = .ok bi ∧
      CursorAt (BlockIterator.ops fuel) (rs.map Record.entry) .ok bi [] := by
  obtain ⟨it, hopen, hat⟩ := h.openBlock_eq
  have hlt := h.lt
  exact ⟨_, hopen, _, h.isCursor (show (blockBytes rs points).length < fuel by omega), it, rfl, hat⟩

/-- An error iterator is a cursor over nothing. -/
theorem empty_cursorAt (fuel : ℕ) (s : Status) :
    CursorAt (BlockIterator.ops fuel) [] s (.empty ⟨s⟩) [] := by
  refine ⟨fun bi rest => bi = .empty ⟨s⟩ ∧ rest = [], ⟨?_, ?_, ?_, ?_, ?_, ?_⟩, rfl, rfl⟩
  · rintro bi rest ⟨rfl, rfl⟩
    simp [BlockIterator.ops, EmptyIterator.ops]
  · rintro bi e rest ⟨-, hrest⟩
    simp at hrest
  · rintro bi rest ⟨rfl, -⟩
    rfl
  · rintro bi rest ⟨rfl, -⟩
    exact ⟨_, rfl, rfl, rfl⟩
  · rintro bi rest ⟨rfl, -⟩ t
    exact ⟨_, rfl, rfl, rfl⟩
  · rintro bi e rest ⟨-, hrest⟩
    simp at hrest

theorem length_le_recordsBytes (rs : List Record) : rs.length ≤ (recordsBytes rs).length := by
  induction rs with
  | nil => exact Nat.zero_le _
  | cons r rs ih =>
    have h3 := r.header_length_ge
    rw [recordsBytes_cons, List.length_append, List.length_cons, Record.bytes_length]
    omega

/-- A table whose index lists `idx`: the block of each handle has the entries `f` and the status `st`. -/
structure Serves (snappy : Snappy) (t : Rep) (fuel : ℕ) (idx : List Entry) (f : Bytes → List Entry)
    (st : Bytes → Status) : Prop where
  short : idx.length < fuel
  index : ∃ bi, t.indexBlock.newIterator = .ok bi ∧
    CursorAt (BlockIterator.ops fuel) idx .ok bi []
  block : ∀ e ∈ idx, ∃ bi rest, t.blockReader snappy e.2 = .ok bi ∧
    CursorAt (BlockIterator.ops fuel) (f e.2) (st e.2) bi rest

section

variable {snappy : Snappy} {t : Rep} {fuel : ℕ} {idx : List Entry} {f : Bytes → List Entry}
  {st : Bytes → Status}

theorem Serves.blocks (h : Serves snappy t fuel idx f st) :
    Blocks (BlockIterator.ops fuel) (BlockIterator.ops fuel) (t.blockReader snappy) idx f st
      (CursorAt (BlockIterator.ops fuel) idx .ok)
      (fun handle => CursorAt (BlockIterator.ops fuel) (f handle) (st handle)) :=
  ⟨isCursor_cursorAt _ _ _, fun _ _ => isCursor_cursorAt _ _ _, h.block⟩

/-- A position of a table's iterator. -/
def TableAt (fuel : ℕ) (idx : List Entry) (f : Bytes → List Entry) (st : Bytes → Status)
    (it : TwoLevelIterator BlockIterator BlockIterator)
    (before rest : List Entry) : Prop :=
  TwoLevelIterator.InFront (BlockIterator.ops fuel) idx f st
    (CursorAt (BlockIterator.ops fuel) idx .ok)
    (fun handle => CursorAt (BlockIterator.ops fuel) (f handle) (st handle)) it before rest

theorem Serves.newIterator (h : Serves snappy t fuel idx f st) :
    ∃ it, t.newIterator = .ok it ∧ TableAt fuel idx f st it idx [] := by
  obtain ⟨bi, hbi, hat⟩ := h.index
  exact ⟨TwoLevelIterator.new bi, by rw [Rep.newIterator, hbi]; rfl,
    TwoLevelIterator.new_inFront hat⟩

end

/-! ### Tables with bad blocks -/

/-- How a block of a table reads: as the bytes of these records, or as an error. -/
def ReadsAs (snappy : Snappy) (t : Rep) (handle : Bytes) :
    Except Status (List Record × List ℕ) → Prop
  | .ok (rs, points) =>
    Fits rs points ∧ t.blockReader snappy handle = openBlock (blockBytes rs points)
  | .error s => s ≠ .ok ∧ t.blockReader snappy handle = .ok (.empty ⟨s⟩)

/-- The entries of a block that can be read. -/
def goodEntries : Except Status (List Record × List ℕ) → List Entry
  | .ok (rs, _) => rs.map Record.entry
  | .error _ => []

/-- The status of a block. -/
def blockStatus : Except Status (List Record × List ℕ) → Status
  | .ok _ => .ok
  | .error s => s

theorem serves_of_readsAs {snappy : Snappy} {t : Rep} {fuel : ℕ} {rs : List Record} {points : List ℕ}
    (hfits : Fits rs points) (hindex : Block.new (blockBytes rs points) = .ok t.indexBlock)
    (hfuel : 2 ^ 32 ≤ fuel) {blocks : Bytes → Except Status (List Record × List ℕ)}
    (hblocks : ∀ e ∈ rs.map Record.entry, ReadsAs snappy t e.2 (blocks e.2)) :
    Serves snappy t fuel (rs.map Record.entry) (fun handle => goodEntries (blocks handle))
      (fun handle => blockStatus (blocks handle)) := by
  refine ⟨?_, ?_, fun e he => ?_⟩
  · have hle := length_le_recordsBytes rs
    have hlt := hfits.records_lt
    rw [List.length_map]
    omega
  · obtain ⟨bi, hopen, hat⟩ := hfits.openBlock_cursorAt hfuel
    rw [openBlock, hindex, Access.ok_bind] at hopen
    exact ⟨bi, hopen, hat⟩
  · have hreads := hblocks e he
    cases hb : blocks e.2 with
    | ok b =>
      obtain ⟨rs', points'⟩ := b
      rw [hb] at hreads
      obtain ⟨bi, hopen, hat⟩ := hreads.1.openBlock_cursorAt hfuel
      exact ⟨bi, [], hreads.2.trans hopen, by rw [goodEntries, blockStatus]; exact hat⟩
    | error s =>
      rw [hb] at hreads
      exact ⟨_, [], hreads.2, empty_cursorAt fuel s⟩

theorem blockStatus_ne_ok {snappy : Snappy} {t : Rep} {handle : Bytes}
    {block : Except Status (List Record × List ℕ)} (h : ReadsAs snappy t handle block) :
    blockStatus block ≠ .ok ↔ ∃ s, block = .error s := by
  cases block with
  | ok b => simp [blockStatus]
  | error s => simpa [blockStatus] using h.1

/-- **A table with bad blocks.**  The index block is intact; each data block reads as records or as an
error.  After any calls, a scan delivers exactly the entries of the good blocks, and the status is bad
at its end exactly when there is a bad block; a status once bad stays bad, also in all later calls. -/
theorem table_scan_bad_blocks (snappy : Snappy) (t : Rep) {rs : List Record} {points : List ℕ}
    (hfits : Fits rs points) (hindex : Block.new (blockBytes rs points) = .ok t.indexBlock)
    (blocks : Bytes → Except Status (List Record × List ℕ))
    (hblocks : ∀ e ∈ rs.map Record.entry, ReadsAs snappy t e.2 (blocks e.2))
    {fuel : ℕ} (hfuel : 2 ^ 32 ≤ fuel) :
    let good := (rs.map Record.entry).flatMap fun e => goodEntries (blocks e.2)
    let ops := t.ops snappy fuel
    ∃ it, t.newIterator = .ok it ∧ ∀ calls, ∃ outs it₁,
      run (iteratorStep ops) it calls = .ok (outs, it₁) ∧
      outs.Pairwise (fun a b => a.2 ≠ .ok → b.2 ≠ .ok) ∧
      ∀ n, good.length < n → ∃ it₂, scan ops n it₁ = .ok (good, it₂) ∧
        (ops.status it₁ ≠ .ok → ops.status it₂ ≠ .ok) ∧
        (ops.status it₂ ≠ .ok ↔ ∃ e ∈ rs.map Record.entry, ∃ s, blocks e.2 = .error s) ∧
        ∀ later, ∃ outs' it₃, run (iteratorStep ops) it₂ later = .ok (outs', it₃) ∧
          (ops.status it₂ ≠ .ok → ∀ s ∈ outs', s.2 ≠ .ok) := by
  intro good ops
  have hserves := serves_of_readsAs hfits hindex hfuel hblocks
  have hb := hserves.blocks
  obtain ⟨it, hnew, hfront⟩ := hserves.newIterator
  refine ⟨it, hnew, fun calls => ?_⟩
  obtain ⟨outs, it₁, before₁, hrun, -, hfront₁, -, hpair⟩ :=
    TwoLevelIterator.twoLevel_refines hb hserves.short hfront calls
  refine ⟨outs, it₁, hrun, hpair, fun n hn => ?_⟩
  obtain ⟨it₂, hscan, hfront₂, hkeep, hstatus⟩ :=
    TwoLevelIterator.twoLevel_scan hb hserves.short hn hfront₁
  refine ⟨it₂, hscan, hkeep, hstatus.trans ?_, fun later => ?_⟩
  · constructor
    · rintro ⟨e, he, hbad⟩
      exact ⟨e, he, (blockStatus_ne_ok (hblocks e he)).mp hbad⟩
    · rintro ⟨e, he, hbad⟩
      exact ⟨e, he, (blockStatus_ne_ok (hblocks e he)).mpr hbad⟩
  · obtain ⟨outs', it₃, -, hrun', -, -, hbad, -⟩ :=
      TwoLevelIterator.twoLevel_refines hb hserves.short hfront₂ later
    exact ⟨outs', it₃, hrun', fun hf =>
      (hbad ((TwoLevelIterator.inFront_status hb hfront₂).mp hf)).1⟩

/-- A block of one record. -/
theorem fits_singleton (key value : Bytes) (hlt : (blockBytes [⟨0, key, value⟩] [0]).length < 2 ^ 32) :
    Fits [⟨0, key, value⟩] [0] := by
  have hfollows : Record.Follows (lastKeyOf []) ⟨0, key, value⟩ :=
    ⟨Nat.zero_le _, Nat.zero_le _, rfl⟩
  exact ⟨(blockShape_nil.snoc hfollows (by simp)).1 fun _ => rfl, hlt⟩

/-- A table of one block on a file that cannot be read any more. -/
theorem table_scan_bad_blocks_small :
    let file : RandomAccessFile := ⟨fun _ _ => ⟨Errors.dataLoss "disk", [], false⟩⟩
    let t : Rep := ⟨{}, file, ⟨0, 0⟩, ⟨blockBytes [⟨0, [1], [0, 0]⟩] [0], 14, 6⟩⟩
    let ops := t.ops Snappy.identity (2 ^ 32)
    ∃ it it', t.newIterator = .ok it ∧ scan ops 1 it = .ok ([], it') ∧ ops.status it' ≠ .ok := by
  intro file t ops
  have hfits : Fits [⟨0, [1], [0, 0]⟩] [0] := fits_singleton [1] [0, 0] (by decide)
  obtain ⟨it, hnew, hruns⟩ := table_scan_bad_blocks Snappy.identity t hfits rfl
    (fun _ => .error (Errors.dataLoss "disk"))
    (by
      simp only [List.map_cons, List.map_nil, List.mem_singleton, forall_eq]
      exact ⟨by decide, rfl⟩)
    le_rfl
  obtain ⟨outs, it₁, hrun, -, hscan⟩ := hruns []
  cases hrun
  obtain ⟨it₂, hscan, -, hstatus, -⟩ := hscan 1 (by decide)
  exact ⟨it, it₂, hnew, hscan, hstatus.mpr ⟨_, List.mem_cons_self, _, rfl⟩⟩

/-! ### Tables written and read -/

/-- Unpacking inverts packing. -/
theorem unpackBlock_packed {snappy : Snappy} (hsnappy : snappy.Lawful)
    {compression type : CompressionType} {raw stored : Bytes}
    (h : compressBlock snappy compression raw = (stored, type)) (inScratch : Bool) :
    ∃ bc, unpackBlock snappy inScratch type.toByte stored = .ok bc ∧ bc.data = raw := by
  have hplain : ∃ bc, unpackBlock snappy inScratch CompressionType.noCompression.toByte raw = .ok bc ∧
      bc.data = raw := ⟨_, by rw [unpackBlock, if_pos rfl], rfl⟩
  cases compression with
  | noCompression =>
    cases h
    exact hplain
  | snappyCompression =>
    rw [compressBlock] at h
    split_ifs at h
    · cases h
      refine ⟨⟨raw, true, true⟩, ?_, rfl⟩
      rw [unpackBlock, if_neg (by decide), if_pos rfl, hsnappy.length, hsnappy.uncompress]
    · cases h
      exact hplain

section

variable {snappy : Snappy} {out : WritableFile} {r : TableBuilder} {file : RandomAccessFile}

theorem StoredBlock.In.position_lt {b : StoredBlock} (h : b.In snappy r) (hlog : Logged out r)
    (hok : r.status = .ok) (hout : out.Addressable) :
    b.handle.offset.toNat = b.position ∧ b.handle.size.toNat = b.stored.length ∧
      b.stored.length + 5 < 2 ^ 64 := by
  have hend := h.end_le
  have hlt := hlog.addressable hout hok
  refine ⟨?_, ?_, by omega⟩
  · rw [handle, UInt64.toNat_ofNat', Nat.mod_eq_of_lt (by omega)]
  · rw [handle, UInt64.toNat_ofNat', Nat.mod_eq_of_lt (by omega)]

/-- **A block written is read back.** -/
theorem readBlock_stored (hsnappy : snappy.Lawful) {b : StoredBlock} (h : b.In snappy r)
    (hlog : Logged out r) (hok : r.status = .ok) (hout : out.Addressable)
    (hfile : file.Stores r.appends.bytes) :
    ∃ bc, readBlock snappy file b.handle = .ok (.ok bc) ∧ bc.data = b.raw := by
  obtain ⟨hoffset, hsize, hfits⟩ := h.position_lt hlog hok hout
  have hat : r.appends.bytes.HasAt b.handle.offset.toNat (sealed b.stored b.type.toByte) := by
    rw [hoffset]
    exact h.hasAt
  obtain ⟨inScratch, hread⟩ := readBlock_sealed snappy hfile hat hsize hfits
  obtain ⟨bc, hbc, hdata⟩ := unpackBlock_packed hsnappy h.packed inScratch
  exact ⟨bc, by rw [hread, hbc], hdata⟩

theorem blockReader_stored (hsnappy : snappy.Lawful) {b : StoredBlock} (h : b.In snappy r)
    (hlog : Logged out r) (hok : r.status = .ok) (hout : out.Addressable)
    (hfile : file.Stores r.appends.bytes) {t : Rep} (ht : t.file = file) :
    t.blockReader snappy b.handle.encoding = openBlock b.raw := by
  obtain ⟨bc, hread, hdata⟩ := readBlock_stored hsnappy h hlog hok hout hfile
  have hdecode := BlockHandle.decodeFrom_encoding b.handle []
  rw [List.append_nil] at hdecode
  rw [Rep.blockReader, hdecode, Access.ok_bind]
  dsimp only
  rw [ht, hread, Access.ok_bind]
  dsimp only
  rw [hdata]

/-- Blocks at different places have different handles. -/
theorem handle_injOn {blocks : List StoredBlock} (hin : ∀ b ∈ blocks, b.In snappy r)
    (hordered : blocks.Pairwise (·.position < ·.position)) (hlog : Logged out r)
    (hok : r.status = .ok) (hout : out.Addressable) {a b : StoredBlock} (ha : a ∈ blocks)
    (hb : b ∈ blocks) (heq : a.handle.encoding = b.handle.encoding) : a = b := by
  by_contra hne
  have hsymm : Std.Symm fun a b : StoredBlock => a.position ≠ b.position := ⟨fun _ _ h => h.symm⟩
  have hdiff := (hordered.imp fun h => Nat.ne_of_lt h).forall ha hb hne
  have hoffset := congrArg (fun handle => handle.offset.toNat) (BlockHandle.encoding_injective heq)
  rw [((hin a ha).position_lt hlog hok hout).1, ((hin b hb).position_lt hlog hok hout).1] at hoffset
  exact hdiff hoffset

/-- **`Open`** on a finished file. -/
theorem openTable_finished (hsnappy : snappy.Lawful) {es : List Entry} {c : Contents}
    (h : Finished snappy r es c) (hlog : Logged out r) (hok : r.status = .ok)
    (hout : out.Addressable) (hfile : file.Stores r.appends.bytes) (options : Options)
    {size : UInt64} (hsize : size.toNat = r.appends.bytes.length) :
    ∃ t, Rep.openTable snappy options file size = .ok (.ok t) ∧ t.file = file ∧
      t.metaindexHandle = c.metaindex.handle ∧ Block.new c.index.raw = .ok t.indexBlock := by
  obtain ⟨body, hbody⟩ := h.footer
  have hlen : (Footer.encoding ⟨c.metaindex.handle, c.index.handle⟩).length
      = Footer.kEncodedLength := Footer.encoding_length _
  have htotal := congrArg List.length hbody
  rw [List.length_append, hlen, ← hsize] at htotal
  obtain ⟨hstatus, hdata⟩ := hfile (size.toNat - Footer.kEncodedLength) Footer.kEncodedLength
    (by omega)
  have hdrop : size.toNat - Footer.kEncodedLength = body.length := by omega
  rw [hdrop, hbody, List.drop_left, List.take_of_length_le hlen.le] at hdata
  obtain ⟨bc, hread, hraw⟩ := readBlock_stored hsnappy h.indexStored hlog hok hout hfile
  obtain ⟨block, hblock⟩ := blockNew_total c.index.raw
  refine ⟨⟨options, file, c.metaindex.handle, block⟩, ?_, rfl, rfl, hblock⟩
  rw [Rep.openTable, if_neg (by omega)]
  dsimp only
  rw [if_neg (not_not.mpr hstatus), hdrop, hdata, Footer.decodeFrom_encoding, Access.ok_bind]
  dsimp only
  rw [hread, Access.ok_bind]
  dsimp only
  rw [hraw, hblock, Access.ok_bind]
  rfl

/-- The block of a handle. -/
def blockOf (indexed : List (Bytes × StoredBlock)) (handle : Bytes) :
    Except Status (List Record × List ℕ) :=
  match indexed.find? fun b => decide (b.2.handle.encoding = handle) with
  | some b => .ok (b.2.records, b.2.points)
  | none => .error (Errors.dataLoss "no such block")

theorem blockOf_handle {indexed : List (Bytes × StoredBlock)} {b : Bytes × StoredBlock}
    (hinj : ∀ a ∈ indexed, a.2.handle.encoding = b.2.handle.encoding → a.2 = b.2)
    (hb : b ∈ indexed) : blockOf indexed b.2.handle.encoding = .ok (b.2.records, b.2.points) := by
  rw [blockOf]
  cases hfind : indexed.find? fun a => decide (a.2.handle.encoding = b.2.handle.encoding) with
  | none =>
    rw [List.find?_eq_none] at hfind
    exact absurd (hfind b hb) (by simp)
  | some a =>
    have heq := hinj a (List.mem_of_find?_eq_some hfind) (by simpa using List.find?_some hfind)
    dsimp only
    rw [heq]

/-- **A finished file is a table that serves its entries.** -/
theorem serves_finished (hsnappy : snappy.Lawful) {es : List Entry} {c : Contents}
    (h : Finished snappy r es c) (hlog : Logged out r) (hok : r.status = .ok)
    (hout : out.Addressable) (hsmall : ∀ raw ∈ r.encoded, raw.length < 2 ^ 32)
    (hfile : file.Stores r.appends.bytes) {t : Rep} (ht : t.file = file)
    (hindex : Block.new c.index.raw = .ok t.indexBlock) {fuel : ℕ} (hfuel : 2 ^ 32 ≤ fuel) :
    ∃ idx f st, Serves snappy t fuel idx f st ∧ Separated f idx ∧ contents f idx = es ∧
      ∀ e ∈ idx, st e.2 = .ok := by
  have hfits : ∀ b : StoredBlock, b.In snappy r → Fits b.records b.points :=
    fun b hb => ⟨hb.shape, hsmall _ hb.encoded⟩
  have hblockOf : ∀ b ∈ c.indexed,
      blockOf c.indexed b.2.handle.encoding = .ok (b.2.records, b.2.points) := by
    intro b hb
    have hin : ∀ x ∈ c.indexed.map Prod.snd, x.In snappy r := by
      intro x hx
      obtain ⟨y, hy, rfl⟩ := List.mem_map.mp hx
      exact h.stored y hy
    exact blockOf_handle (fun a ha heq => handle_injOn hin h.ordered hlog hok hout
      (List.mem_map_of_mem ha) (List.mem_map_of_mem hb) heq) hb
  have hidx : c.index.records.map Record.entry = Layout.indexEntries c.indexed := h.indexEntries
  have hreads : ∀ e ∈ c.index.records.map Record.entry,
      ReadsAs snappy t e.2 (blockOf c.indexed e.2) := by
    intro e he
    rw [hidx] at he
    obtain ⟨b, hb, rfl⟩ := List.mem_map.mp he
    have hin := h.stored b hb
    rw [hblockOf b hb]
    exact ⟨hfits b.2 hin, blockReader_stored hsnappy hin hlog hok hout hfile ht⟩
  have hserves := serves_of_readsAs (hfits c.index h.indexStored) hindex hfuel hreads
  rw [hidx] at hserves
  have hgood : ∀ b ∈ c.indexed,
      goodEntries (blockOf c.indexed b.2.handle.encoding) = b.2.entries := by
    intro b hb
    rw [hblockOf b hb]
    rfl
  have hcontents := contents_map (f := fun handle => goodEntries (blockOf c.indexed handle))
    (g := fun b : StoredBlock => b.handle.encoding) hgood
  have hseparated := separated_map (f := fun handle => goodEntries (blockOf c.indexed handle))
    (g := fun b : StoredBlock => b.handle.encoding) hgood h.separated
  refine ⟨_, _, _, hserves, hseparated, hcontents.trans h.entries, ?_⟩
  intro e he
  obtain ⟨b, hb, rfl⟩ := List.mem_map.mp he
  dsimp only
  rw [hblockOf b hb]
  rfl

end

/-- **Written.**  Any calls of `Add` and `Flush` with increasing keys, and then `Finish`, fail no
assertion, and leave a finished file if all appends succeed. -/
theorem buildTable_finished (snappy : Snappy) (options : Options)
    (hinterval : 1 ≤ options.blockRestartInterval) {out : WritableFile} (hout : out.Addressable)
    (calls : List Call) (hcalls : ∀ c ∈ calls, c.closes = false) (hsorted : Sorted (added calls)) :
    ∃ outs r, buildTable options snappy out (calls ++ [.finish]) = .ok (outs, r) ∧
      (r.status = .ok → Logged out r ∧ r.fileSize.toNat = r.appends.bytes.length ∧
        ∃ c, Finished snappy r (added calls) c ∧ Placed r c) := by
  have hS : Tolerates out fun _ => False := .inl hout
  obtain ⟨r₀, hnew⟩ : ∃ r₀, TableBuilder.new options = .ok r₀ := by
    obtain ⟨block, hblock, -⟩ := builds_new hinterval
    rw [TableBuilder.new, hblock]
    exact ⟨_, rfl⟩
  have hready : Ready snappy out [] r₀ := (new_ready hnew).1
  -- all calls but the last
  have hrun := run_ready hS hready hcalls (by simpa using hsorted)
  obtain ⟨⟨outs₁, r₁⟩, hrun₁⟩ : ∃ w, run (builderStep snappy out) r₀ calls = .ok w := by
    cases hres : run (builderStep snappy out) r₀ calls with
    | error e =>
      rw [hres] at hrun
      exact hrun.elim
    | ok w => exact ⟨w, rfl⟩
  rw [hrun₁] at hrun
  rw [List.nil_append] at hrun
  -- `Finish`
  have hfinish := finish_finished hS hrun
  obtain ⟨r, hr⟩ : ∃ r, r₁.finish snappy out = .ok r := by
    cases hres : r₁.finish snappy out with
    | error e =>
      rw [hres] at hfinish
      exact hfinish.elim
    | ok r => exact ⟨r, rfl⟩
  rw [hr] at hfinish
  have hstep : builderStep snappy out r₁ .finish = .ok (r.status, r) := by
    rw [builderStep, TableBuilder.perform, hr]
    rfl
  refine ⟨outs₁ ++ [r.status], r, ?_, fun hok => ?_⟩
  · rw [buildTable, hnew, Checked.ok_bind, run_append, hrun₁]
    simp only [run, hstep]
    rfl
  · obtain ⟨hlog, c, hfinished, hplaced⟩ := hfinish hok
    have hlt := hlog.addressable hout hok
    refine ⟨hlog, ?_, c, hfinished, hplaced⟩
    rw [TableBuilder.fileSize, hlog.offset hok, UInt64.toNat_ofNat', Nat.mod_eq_of_lt (by omega)]

/-- **Written and read.**  Any calls of `Add` and `Flush` with increasing keys, and then `Finish`, fail
no assertion.  If all appends succeed and every encoded block is smaller than `2 ^ 32` bytes, then a
file that returns the bytes written opens with its exact size, and the iterator of the table is a
cursor over the entries added, with status OK throughout. -/
theorem table_refines_cursor {snappy : Snappy} (hsnappy : snappy.Lawful) (options : Options)
    (hinterval : 1 ≤ options.blockRestartInterval) {out : WritableFile} (hout : out.Addressable)
    (calls : List Call) (hcalls : ∀ c ∈ calls, c.closes = false) (hsorted : Sorted (added calls)) :
    ∃ outs r, buildTable options snappy out (calls ++ [.finish]) = .ok (outs, r) ∧
      (r.status = .ok → (∀ raw ∈ r.encoded, raw.length < 2 ^ 32) →
        r.fileSize.toNat = r.appends.bytes.length ∧
        ∀ (file : RandomAccessFile) (options' : Options) (fuel : ℕ), file.Stores r.appends.bytes →
          2 ^ 32 ≤ fuel → ∃ t it,
            Rep.openTable snappy options' file r.fileSize = .ok (.ok t) ∧ t.newIterator = .ok it ∧
            ∀ ops, Permitted permitted (cursorSpec (added calls) .ok) [] ops →
              ∃ it', run (iteratorStep (t.ops snappy fuel)) it ops
                = .ok ((specRun (cursorSpec (added calls) .ok) [] ops).1, it')) := by
  obtain ⟨outs, r, hbuild, hwritten⟩ :=
    buildTable_finished snappy options hinterval hout calls hcalls hsorted
  refine ⟨outs, r, hbuild, fun hok hsmall => ?_⟩
  obtain ⟨hlog, hsize, c, hfinished, -⟩ := hwritten hok
  refine ⟨hsize, fun file options' fuel hfile hfuel => ?_⟩
  obtain ⟨t, hopen, ht, -, hindex⟩ :=
    openTable_finished hsnappy hfinished hlog hok hout hfile options' hsize
  obtain ⟨idx, f, st, hserves, hsep, hentries, hst⟩ :=
    serves_finished hsnappy hfinished hlog hok hout hsmall hfile ht hindex hfuel
  obtain ⟨it, hit, hfront⟩ := hserves.newIterator
  have hcursor := TwoLevelIterator.twoLevel_isCursor hserves.blocks hserves.short hsep hst
  rw [hentries] at hcursor
  exact ⟨t, it, hopen, hit, fun ops hops => hcursor.run_refines ⟨_, hfront⟩ ops hops⟩

/-- One entry, written, read back, and scanned. -/
theorem table_refines_cursor_small :
    ∃ outs r t it it',
      buildTable {} Snappy.identity .roomy [.add [1] [2], .finish] = .ok (outs, r) ∧
      Rep.openTable Snappy.identity {}
        (linuxRandomAccessFile (RegularFile.whole r.appends.bytes)) r.fileSize = .ok (.ok t) ∧
      t.newIterator = .ok it ∧
      run (iteratorStep (t.ops Snappy.identity (2 ^ 32))) it [.seekToFirst, .next]
        = .ok ([(some ([1], [2]), .ok), (none, .ok)], it') := by
  obtain ⟨outs, r, hbuild, hread⟩ := table_refines_cursor Snappy.identity_lawful {} (by decide)
    WritableFile.roomy_addressable [.add [1] [2]] (by simp [Call.closes])
    (List.pairwise_singleton _ _)
  have hfacts : (buildTable {} Snappy.identity .roomy [.add [1] [2], .finish]).map
      (fun w => (w.2.status, w.2.encoded.all fun raw => decide (raw.length < 2 ^ 32)))
        = .ok (.ok, true) := rfl
  rw [show [Call.add [1] [2], .finish] = [Call.add [1] [2]] ++ [.finish] from rfl, hbuild] at hfacts
  simp only [Except.map, Except.ok.injEq, Prod.mk.injEq, List.all_eq_true, decide_eq_true_eq] at hfacts
  obtain ⟨-, hread⟩ := hread hfacts.1 hfacts.2
  obtain ⟨t, it, hopen, hit, hruns⟩ :=
    hread _ {} _ (linuxRandomAccessFile_serves (RegularFile.whole r.appends.bytes)).stores le_rfl
  have hpermitted : Permitted permitted (cursorSpec (added [.add [1] [2]]) .ok) []
      [.seekToFirst, .next] :=
    ⟨trivial, by simp [permitted, cursorSpec, cursorStep, added, Call.entries], trivial⟩
  obtain ⟨it', hrun⟩ := hruns _ hpermitted
  exact ⟨outs, r, t, it, it', hbuild, hopen, hit, hrun⟩

end LearnNetlib.Table
