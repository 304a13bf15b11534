import LearnNetlib.Foundations.SortedCursor
import LearnNetlib.Table.BuilderLog
import LearnNetlib.Table.Iterator

/-!
# The layout of a table under construction

* `StoredBlock`, `StoredBlock.In` — a block of records and its place in the file;
* `Layout` — the blocks indexed so far with their separators, the block whose index entry is pending,
  and the records of the data block;
* `Holds` — the invariant that ties a builder to its layout;
* **`flush_holds`**, **`addPendingEntry_holds`**, **`addIndex_holds`** — what the parts of `Add` and
  `Finish` do to the layout.
-/

namespace LearnNetlib.Table

open SortedCursor Runs

/-! ### Blocks in the file -/

/-- A block: where it begins, what is stored there, and what it encodes. -/
structure StoredBlock where
  position : ℕ
  stored : Bytes
  type : CompressionType
  records : List Record
  points : List ℕ

namespace StoredBlock

def entries (b : StoredBlock) : List Entry := b.records.map Record.entry

def raw (b : StoredBlock) : Bytes := blockBytes b.records b.points

def handle (b : StoredBlock) : BlockHandle :=
  ⟨UInt64.ofNat b.position, UInt64.ofNat b.stored.length⟩

/-- `r` has written `b`. -/
structure In (snappy : Snappy) (r : TableBuilder) (b : StoredBlock) : Prop where
  shape : BlockShape b.records b.points
  encoded : b.raw ∈ r.encoded
  packed : compressBlock snappy r.options.compression b.raw = (b.stored, b.type)
  hasAt : r.appends.bytes.HasAt b.position (sealed b.stored b.type.toByte)

variable {snappy : Snappy} {file : WritableFile} {r r' : TableBuilder} {b : StoredBlock}

theorem In.end_le (h : b.In snappy r) :
    b.position + b.stored.length + 5 ≤ r.appends.bytes.length := by
  have hle := h.hasAt.length_le (by simp [sealed])
  rw [sealed_length] at hle
  omega

/-- Writing more leaves the block where it is. -/
theorem In.mono (h : b.In snappy r) (hoptions : r'.options = r.options)
    (hencoded : r.encoded ⊆ r'.encoded) (hbytes : r.appends.bytes <+: r'.appends.bytes) :
    b.In snappy r' := by
  refine ⟨h.shape, hencoded h.encoded, by rw [hoptions]; exact h.packed, ?_⟩
  obtain ⟨more, hmore⟩ := hbytes
  rw [← hmore]
  exact h.hasAt.append_right more

theorem In.of_wrote {bs : Bytes} (h : b.In snappy r) (hwrote : Wrote file bs r r')
    (hok : r'.status = .ok) (hencoded : r.encoded ⊆ r'.encoded) : b.In snappy r' :=
  h.mono (by rw [hwrote.frame]) hencoded ⟨bs, (hwrote.bytes hok).symm⟩

/-- A handle that may be encoded. -/
theorem In.isSet (h : b.In snappy r) (hlog : Logged file r) (hok : r.status = .ok)
    (hfile : file.Addressable) : b.handle.IsSet := by
  have hend := h.end_le
  have hlt := hlog.addressable hfile hok
  have hmax : (~~~0 : UInt64).toNat = 2 ^ 64 - 1 := by decide
  have hne : ∀ n, n < 2 ^ 64 - 1 → UInt64.ofNat n ≠ ~~~0 := by
    intro n hn heq
    have htoNat := congrArg UInt64.toNat heq
    rw [UInt64.toNat_ofNat', hmax] at htoNat
    omega
  exact ⟨hne _ (by omega), hne _ (by omega)⟩

end StoredBlock

/-! ### The layout -/

structure Layout where
  indexed : List (Bytes × StoredBlock)
  pending : Option StoredBlock
  current : List Record

namespace Layout

/-- The entries behind the last index entry. -/
def unindexed (l : Layout) : List Entry :=
  l.pending.toList.flatMap StoredBlock.entries ++ l.current.map Record.entry

/-- Everything added so far. -/
def entries (l : Layout) : List Entry := contents StoredBlock.entries l.indexed ++ l.unindexed

/-- The data blocks written. -/
def blocks (l : Layout) : List StoredBlock := l.indexed.map Prod.snd ++ l.pending.toList

/-- The entries of the index block. -/
def indexEntries (indexed : List (Bytes × StoredBlock)) : List Entry :=
  indexed.map fun b => (b.1, b.2.handle.encoding)

end Layout

/-- **The invariant**: the builder has the layout `l`. -/
structure Holds (snappy : Snappy) (file : WritableFile) (r : TableBuilder) (l : Layout) : Prop
    extends Logged file r where
  ok : r.status = .ok
  interval : 1 ≤ r.options.blockRestartInterval
  index : ∃ rs points, Builds r.indexBlock rs points ∧
    rs.map Record.entry = Layout.indexEntries l.indexed
  data : ∃ points, Builds r.dataBlock l.current points
  pendingFlag : r.pendingIndexEntry = l.pending.isSome
  pending : ∀ b, l.pending = some b →
    r.pendingHandle = b.handle ∧ b.records ≠ [] ∧ l.current = []
  numEntries : r.numEntries = l.entries.length
  sorted : Sorted l.entries
  separated : Separated StoredBlock.entries l.indexed
  below : ∀ b ∈ l.indexed, ∀ e ∈ l.unindexed, b.1 < e.1
  stored : ∀ b ∈ l.blocks, b.In snappy r
  ordered : l.blocks.Pairwise (·.position < ·.position)

/-- Between two calls `last_key` is the last key added. -/
def LastKey (r : TableBuilder) (l : Layout) : Prop :=
  ∀ e, l.entries.getLast? = some e → r.lastKey = e.1

/-- Between two calls something stands behind the last index entry. -/
def Rests (l : Layout) : Prop := l.indexed ≠ [] → l.unindexed ≠ []

/-- What is left of the invariant in the middle of a call in which an append has failed. -/
def Broken (r : TableBuilder) : Prop :=
  r.status ≠ .ok ∧ r.pendingIndexEntry = false ∧ ∃ points, Builds r.dataBlock [] points

/-- Which assertions may fail: those of `EncodeTo`, where a file could outgrow a handle. -/
def Tolerates (file : WritableFile) (S : Assertion → Prop) : Prop :=
  file.Addressable ∨ S .handleOffsetSet ∧ S .handleSizeSet

variable {snappy : Snappy} {file : WritableFile} {r r' : TableBuilder} {l : Layout}
  {S : Assertion → Prop}

/-- A finished block builder can be filled again. -/
theorem Builds.finish_reset {b : BlockBuilder} {rs : List Record} {points : List ℕ}
    (h : Builds b rs points) : Builds b.finish.reset [] [0] :=
  builds_reset h.interval

theorem handle_isSet {b : StoredBlock} (hS : Tolerates file S) (hin : b.In snappy r)
    (hlog : Logged file r) (hok : r.status = .ok) :
    b.handle.IsSet ∨ S .handleOffsetSet ∧ S .handleSizeSet :=
  hS.imp (hin.isSet hlog hok) id

/-! ### `Flush` -/

/-- The block just written. -/
theorem StoredBlock.In.new {stored : Bytes} {type : CompressionType} {rs : List Record}
    {points : List ℕ} {block : BlockBuilder} (hbuilds : Builds block rs points)
    (hpacked : compressBlock snappy r.options.compression block.finish.buffer = (stored, type))
    (hwrote : Wrote file (sealed stored type.toByte) r r') (hok : r'.status = .ok)
    (hencoded : r'.encoded = r.encoded ++ [block.finish.buffer]) :
    StoredBlock.In snappy r' ⟨r.appends.bytes.length, stored, type, rs, points⟩ := by
  refine ⟨hbuilds.shape, ?_, ?_, ?_⟩
  · rw [hencoded, finish_buffer hbuilds]
    exact List.mem_append_right _ List.mem_cons_self
  · rw [hwrote.frame]
    rw [finish_buffer hbuilds] at hpacked
    exact hpacked
  · rw [hwrote.bytes hok]
    simpa using Bytes.HasAt.behind r.appends.bytes (sealed stored type.toByte) []

/-- The records of the data block make a pending block. -/
theorem unindexed_flushed (hnone : l.pending = none) (position : ℕ) (stored : Bytes)
    (type : CompressionType) (points : List ℕ) :
    Layout.unindexed ⟨l.indexed, some ⟨position, stored, type, l.current, points⟩, []⟩
      = l.unindexed := by
  simp [Layout.unindexed, hnone, StoredBlock.entries]

/-- The layout once the data block is written. -/
theorem Holds.flushed (h : Holds snappy file r l) (hnone : l.pending = none) (hne : l.current ≠ [])
    {points : List ℕ} (hdata : Builds r.dataBlock l.current points) {stored : Bytes}
    {type : CompressionType}
    (hpacked : compressBlock snappy r.options.compression r.dataBlock.finish.buffer = (stored, type))
    (hwrote : Wrote file (sealed stored type.toByte) r r') (hok : r'.status = .ok)
    (hencoded : r'.encoded = r.encoded ++ [r.dataBlock.finish.buffer]) :
    Holds snappy file
      { r' with
        dataBlock := r.dataBlock.finish.reset
        pendingHandle := ⟨r.offset, UInt64.ofNat stored.length⟩
        pendingIndexEntry := r'.status.isOk }
      ⟨l.indexed, some ⟨r.appends.bytes.length, stored, type, l.current, points⟩, []⟩ := by
  have hin := StoredBlock.In.new hdata hpacked hwrote hok hencoded
  have hsame := unindexed_flushed hnone r.appends.bytes.length stored type points
  have hgrow : r.encoded ⊆ r'.encoded := by
    rw [hencoded]
    exact List.subset_append_left _ _
  refine ⟨hwrote.logged.of_eq rfl rfl rfl, hok, ?_, ?_, ⟨_, hdata.finish_reset⟩, ?_, ?_, ?_, ?_,
    h.separated, ?_, ?_, ?_⟩
  · rw [hwrote.frame]
    exact h.interval
  · rw [hwrote.frame]
    exact h.index
  · rw [hok]
    rfl
  · rintro b ⟨⟩
    rw [h.offset h.ok]
    exact ⟨rfl, hne, rfl⟩
  · rw [Layout.entries, hsame, hwrote.frame]
    exact h.numEntries
  · rw [Layout.entries, hsame]
    exact h.sorted
  · rw [hsame]
    exact h.below
  · intro b hb
    rcases List.mem_append.mp hb with hb | hb
    · have hin' := h.stored b (List.mem_append_left _ hb)
      exact (hin'.of_wrote hwrote hok hgrow).mono rfl (List.Subset.refl _) List.prefix_rfl
    · rw [Option.toList_some, List.mem_singleton] at hb
      subst hb
      exact hin.mono rfl (List.Subset.refl _) List.prefix_rfl
  · refine List.pairwise_append.mpr ⟨?_, List.pairwise_singleton _ _, ?_⟩
    · exact (List.pairwise_append.mp h.ordered).1
    · intro a ha b hb
      rw [Option.toList_some, List.mem_singleton] at hb
      subst hb
      have hend := (h.stored a (List.mem_append_left _ ha)).end_le
      dsimp only
      omega

/-- **`Flush`** moves the records of the data block to the file. -/
theorem flush_holds (h : Holds snappy file r l) (hopen : r.closed = false) :
    ∃ r', r.flush snappy file = .ok r' ∧ r'.closed = false ∧
      (Broken r' ∨ ∃ l', Holds snappy file r' l' ∧ l'.entries = l.entries ∧
        l'.unindexed = l.unindexed ∧ l'.indexed = l.indexed ∧ l'.current = [] ∧
        r'.lastKey = r.lastKey) := by
  obtain ⟨points, hdata⟩ := h.data
  rcases TableBuilder.flush_cases snappy h.toLogged hopen with ⟨hidle, hflush⟩ |
    ⟨hpending, hempty, -, -⟩ | ⟨r', stored, type, hok, hempty, hpending, hpacked, hwrote, hencoded, hflush⟩
  · -- nothing to do
    have hcurrent := (empty_iff hdata).mp (hidle.resolve_left (not_not.mpr h.ok))
    exact ⟨r, hflush, hopen, .inr ⟨l, h, rfl, rfl, rfl, hcurrent, rfl⟩⟩
  · -- a pending block leaves the data block empty
    exfalso
    rw [h.pendingFlag, Option.isSome_iff_exists] at hpending
    obtain ⟨b, hb⟩ := hpending
    rw [(empty_iff hdata).mpr (h.pending b hb).2.2] at hempty
    exact absurd hempty (by decide)
  · have hnone : l.pending = none := by
      rwa [h.pendingFlag, Option.isSome_eq_false_iff, Option.isNone_iff_eq_none] at hpending
    have hne : l.current ≠ [] := fun hc => by
      rw [(empty_iff hdata).mpr hc] at hempty
      exact absurd hempty (by decide)
    have hclosed : r'.closed = false := by
      rw [hwrote.frame]
      exact hopen
    refine ⟨_, hflush, hclosed, ?_⟩
    by_cases hok' : r'.status = .ok
    · have hsame := unindexed_flushed hnone r.appends.bytes.length stored type points
      refine .inr ⟨_, h.flushed hnone hne hdata hpacked hwrote hok' hencoded, ?_, hsame, rfl, rfl, ?_⟩
      · rw [Layout.entries, hsame, Layout.entries]
      · rw [hwrote.frame]
    · refine .inl ⟨hok', ?_, ?_⟩
      · exact (Status.isOk_eq_false_iff _).mpr hok'
      · exact ⟨_, hdata.finish_reset⟩

/-! ### `Add` -/

theorem exists_lastKey {rs : List Record} (h : rs ≠ []) : ∃ x ∈ rs, lastKeyOf rs = x.key := by
  obtain ⟨rs, x, rfl⟩ := (List.eq_nil_or_concat rs).resolve_left h
  rw [List.concat_eq_append]
  exact ⟨x, by simp, lastKeyOf_snoc _ _⟩

/-- **The index entry of the pending block**, under any key at or above its keys. -/
theorem addPendingEntry_holds (hS : Tolerates file S) (h : Holds snappy file r l)
    {b : StoredBlock} (hb : l.pending = some b) {separator : Bytes}
    (hle : ∀ e ∈ b.entries, e.1 ≤ separator) :
    (TableBuilder.addPendingEntry { r with lastKey := separator }).Ensures S fun r' =>
      r'.closed = r.closed ∧ (∀ c : StoredBlock, c.In snappy r → c.In snappy r') ∧
      Holds snappy file r' ⟨l.indexed ++ [(separator, b)], none, []⟩ ∧
      contents StoredBlock.entries (l.indexed ++ [(separator, b)]) = l.entries := by
  obtain ⟨hhandle, hne, hcurrent⟩ := h.pending b hb
  obtain ⟨rs, points, hindex, hrs⟩ := h.index
  have hunindexed : l.unindexed = b.entries := by simp [Layout.unindexed, hb, hcurrent]
  have hlt : ∀ c ∈ l.indexed, ∀ e ∈ b.entries, c.1 < e.1 := by
    intro c hc e he
    exact h.below c hc e (by rw [hunindexed]; exact he)
  have hkey : rs ≠ [] → lastKeyOf rs < separator := by
    intro hrsne
    obtain ⟨x, hx, hlast⟩ := exists_lastKey hrsne
    have hmem : x.entry ∈ Layout.indexEntries l.indexed := by
      rw [← hrs]
      exact List.mem_map_of_mem hx
    obtain ⟨c, hc, hcx⟩ := List.mem_map.mp hmem
    obtain ⟨y, ys, hys⟩ := List.exists_cons_of_ne_nil hne
    have hy : y.entry ∈ b.entries := by simp [StoredBlock.entries, hys]
    have hxc : x.key = c.1 := (congrArg Prod.fst hcx).symm
    rw [hlast, hxc]
    exact (hlt c hc _ hy).trans_le (hle _ hy)
  have hin := h.stored b (List.mem_append_right _ (by simp [hb]))
  have hentries : contents StoredBlock.entries (l.indexed ++ [(separator, b)]) = l.entries := by
    rw [contents_append, Layout.entries, hunindexed, contents_cons, contents_nil, List.append_nil]
  rw [TableBuilder.addPendingEntry]
  dsimp only
  rw [hhandle]
  refine (BlockHandle.encodeTo_ensures (handle_isSet hS hin h.toLogged h.ok) []).bind
    fun handleEncoding hencoding => ?_
  rw [List.nil_append] at hencoding
  obtain ⟨indexBlock, shared, points', hadd, -, hbuilds⟩ := add_builds hindex handleEncoding hkey
  rw [hadd, Checked.ok_bind]
  refine Checked.Ensures.of_ok rfl ⟨rfl, fun c hc => hc.mono rfl (List.Subset.refl _)
    List.prefix_rfl, ⟨h.toLogged.of_eq rfl rfl rfl, h.ok, h.interval, ⟨_, _, hbuilds, ?_⟩, ?_, rfl,
    by simp, ?_, ?_, ?_, ?_, ?_, ?_⟩, hentries⟩
  · rw [List.map_append, hrs, hencoding]
    simp [Layout.indexEntries, Record.entry]
  · obtain ⟨points, hdata⟩ := h.data
    rw [hcurrent] at hdata
    exact ⟨points, hdata⟩
  · rw [Layout.entries, hentries]
    simpa [Layout.unindexed] using h.numEntries
  · rw [Layout.entries, hentries]
    simpa [Layout.unindexed] using h.sorted
  · exact separated_snoc h.separated hlt hle
  · simp [Layout.unindexed]
  · intro c hc
    have hc' : c ∈ l.blocks := by simpa [Layout.blocks, hb] using hc
    exact (h.stored c hc').mono rfl (List.Subset.refl _) List.prefix_rfl
  · have hblocks : Layout.blocks ⟨l.indexed ++ [(separator, b)], none, []⟩ = l.blocks := by
      simp [Layout.blocks, hb]
    rw [hblocks]
    exact h.ordered

/-- What `Add` does to the index: nothing without a pending block; else that gets its separator. -/
def Indexes (r : TableBuilder) (l : Layout) (key : Bytes) (indexed : List (Bytes × StoredBlock)) : Prop :=
  l.pending = none ∧ indexed = l.indexed ∨
    ∃ b separator, l.pending = some b ∧ b.records ≠ [] ∧
      findShortestSeparator r.lastKey key = .ok separator ∧ indexed = l.indexed ++ [(separator, b)]

/-- **The first key behind a block** gives it its separator. -/
theorem addIndex_holds (hS : Tolerates file S) (h : Holds snappy file r l) (hlast : LastKey r l)
    (hrests : Rests l) {key : Bytes} (hkey : ∀ e ∈ l.entries, e.1 < key) :
    (r.addIndex key).Ensures S fun r' => r'.closed = r.closed ∧ ∃ l', Holds snappy file r' l' ∧
      l'.entries = l.entries ∧ l'.pending = none ∧ (∀ b ∈ l'.indexed, b.1 < key) ∧
      Indexes r l key l'.indexed := by
  have hbelow : ∀ b ∈ l.indexed, b.1 < key := by
    intro b hb
    obtain ⟨e, es, he⟩ := List.exists_cons_of_ne_nil (hrests (List.ne_nil_of_mem hb))
    have hmem : e ∈ l.unindexed := by simp [he]
    exact (h.below b hb e hmem).trans (hkey e (List.mem_append_right _ hmem))
  rw [TableBuilder.addIndex, h.pendingFlag]
  cases hpending : l.pending with
  | none => exact Checked.Ensures.of_ok rfl ⟨rfl, l, h, rfl, hpending, hbelow, .inl ⟨hpending, rfl⟩⟩
  | some b =>
    obtain ⟨hhandle, hne, hcurrent⟩ := h.pending b hpending
    obtain ⟨points, hdata⟩ := h.data
    have hunindexed : l.unindexed = b.entries := by simp [Layout.unindexed, hpending, hcurrent]
    have hentries : l.entries = contents StoredBlock.entries l.indexed ++ b.entries := by
      rw [Layout.entries, hunindexed]
    -- the last entry of the block is the last one added
    have hbne : b.entries ≠ [] := by simpa [StoredBlock.entries] using hne
    obtain ⟨es, e, hes⟩ := (List.eq_nil_or_concat b.entries).resolve_left hbne
    rw [List.concat_eq_append] at hes
    have hmem : e ∈ l.entries := by rw [hentries, hes]; simp
    have hlastKey : r.lastKey = e.1 := hlast e (by rw [hentries, hes]; simp)
    have hsorted : Sorted b.entries := by
      have hs := h.sorted
      rw [hentries, sorted_append_iff] at hs
      exact hs.2.1
    obtain ⟨separator, hsep, hge, hlt⟩ := findShortestSeparator_spec (hkey e hmem)
    have hle : ∀ e' ∈ b.entries, e'.1 ≤ separator := by
      intro e' he'
      exact (hsorted.le_of_getLast? (by rw [hes]; simp) e' he').trans hge
    simp only [Option.isSome_some, if_true]
    rw [check_of ((empty_iff hdata).mpr hcurrent), Checked.ok_bind, hlastKey, hsep, Checked.ok_bind]
    refine (addPendingEntry_holds hS h hpending hle).mono fun r' h' =>
      ⟨h'.1, _, h'.2.2.1, ?_, rfl, ?_, .inr ⟨b, separator, hpending, hne, by rw [hlastKey, hsep], rfl⟩⟩
    · rw [Layout.entries, h'.2.2.2]
      simp [Layout.unindexed]
    · intro c hc
      rcases List.mem_append.mp hc with hc | hc
      · exact hbelow c hc
      · rw [List.mem_singleton.mp hc]
        exact hlt

end LearnNetlib.Table
