import LearnNetlib.Table.TableCursor

/-!
# Keys too long for a block

The lengths in a block and the offsets of its restart points have 32 bits, and nothing on the writing
side checks them.

* `writeBlock_roomy`, `flush_roomy`, `finish_roomy` — on a file with room nothing fails, and one entry
  makes one data block;
* `Wide` — a key whose length is nought in 32 bits; `Wide.seek_invalid` — an index block under such a
  key is not searched;
* **`wide_key_lost`** — such a key is stored and cannot be looked up.
-/

namespace LearnNetlib.Table

open Loops Runs SortedCursor

/-! ### Files with room -/

theorem compressBlock_length_le {snappy : Snappy} {compression type : CompressionType}
    {raw stored : Bytes} (h : compressBlock snappy compression raw = (stored, type)) :
    stored.length ≤ raw.length := by
  cases compression with
  | noCompression =>
    cases h
    exact le_rfl
  | snappyCompression =>
    rw [compressBlock] at h
    split_ifs at h
    · cases h
      omega
    · cases h
      exact le_rfl

theorem append_roomy {r : TableBuilder} {data : Bytes}
    (h : r.appends.bytes.length + data.length < 2 ^ 64 - 1) :
    (r.append .roomy data).status = .ok := by
  rw [TableBuilder.append, WritableFile.roomy]
  dsimp only
  rw [if_pos h]

theorem writeRawBlock_roomy {r : TableBuilder} {contents : Bytes} (type : CompressionType)
    (h : r.appends.bytes.length + contents.length + 5 < 2 ^ 64 - 1) :
    (r.writeRawBlock .roomy contents type).1.status = .ok := by
  have hfirst : (r.append .roomy contents).status = .ok := append_roomy (by omega)
  have hsecond :
      ((r.append .roomy contents).append .roomy (blockTrailer contents type)).status = .ok := by
    apply append_roomy
    rw [TableBuilder.append, Appends.bytes_snoc, List.length_append,
      show (blockTrailer contents type).length = 5 from rfl]
    exact h
  rw [TableBuilder.writeRawBlock]
  simp only [hfirst, hsecond, Status.isOk_ok, if_true]

/-- **`WriteBlock`** with room for the block and its trailer. -/
theorem writeBlock_roomy (snappy : Snappy) {r : TableBuilder} (h : Logged .roomy r)
    (hok : r.status = .ok) (block : BlockBuilder)
    (hroom : r.appends.bytes.length + block.currentSizeEstimate + 5 < 2 ^ 64 - 1) :
    ∃ r' handle, r.writeBlock snappy .roomy block = .ok (r', block.finish.reset, handle) ∧
      r'.status = .ok ∧
      r'.appends.bytes.length ≤ r.appends.bytes.length + block.currentSizeEstimate + 5 := by
  obtain ⟨⟨stored, type⟩, hstored⟩ : ∃ p,
    compressBlock snappy r.options.compression block.finish.buffer = p := ⟨_, rfl⟩
  have hle := compressBlock_length_le hstored
  rw [block.finish_length] at hle
  obtain ⟨r', hwrite, hwrote, -⟩ := TableBuilder.writeBlock_wrote snappy h hok block hstored
  have hok' : r'.status = .ok := by
    have hraw : (r.writeRawBlock .roomy stored type).1.status = .ok :=
      writeRawBlock_roomy type (by omega)
    rw [TableBuilder.writeBlock, check_of (by rw [hok]; rfl)] at hwrite
    simp only [Checked.ok_bind, hstored, Checked.pure_eq, Except.ok.injEq, Prod.mk.injEq] at hwrite
    rw [← hwrite.1]
    exact hraw
  refine ⟨r', _, hwrite, hok', ?_⟩
  rw [hwrote.bytes hok', List.length_append, sealed_length]
  omega

/-- **`Flush`** with room for the data block. -/
theorem flush_roomy {snappy : Snappy} {r : TableBuilder} {l : Layout}
    (h : Holds snappy .roomy r l) (hopen : r.closed = false) (hne : l.current ≠ [])
    (hroom : r.appends.bytes.length + r.dataBlock.currentSizeEstimate + 5 < 2 ^ 64 - 1) :
    ∃ r' l', r.flush snappy .roomy = .ok r' ∧ r'.closed = false ∧ Holds snappy .roomy r' l' ∧
      l'.unindexed = l.unindexed ∧ l'.indexed = l.indexed ∧ l'.current = [] ∧
      r'.lastKey = r.lastKey ∧
      r'.appends.bytes.length ≤ r.appends.bytes.length + r.dataBlock.currentSizeEstimate + 5 := by
  obtain ⟨points, hdata⟩ := h.data
  have hempty : ¬ r.dataBlock.empty = true := fun he => hne ((empty_iff hdata).mp he)
  have hpending : r.pendingIndexEntry = false := by
    rw [h.pendingFlag]
    cases hp : l.pending with
    | none => rfl
    | some b => exact absurd (h.pending b hp).2.2 hne
  obtain ⟨r₁, handle, hwrite, hok₁, hbytes⟩ :=
    writeBlock_roomy snappy h.toLogged h.ok r.dataBlock hroom
  obtain ⟨r', hflush, hopen', hcases⟩ := flush_holds h hopen
  have hr' : r' = { r₁ with
      dataBlock := r.dataBlock.finish.reset, pendingHandle := handle, pendingIndexEntry := true } := by
    rw [TableBuilder.flush, check_of hopen, Checked.ok_bind, if_neg (by rw [h.ok]; simp),
      if_neg hempty, check_of hpending, Checked.ok_bind, hwrite] at hflush
    simp only [Checked.ok_bind, hok₁, Status.isOk_ok, if_true, Checked.pure_eq, Except.ok.injEq]
      at hflush
    rw [hok₁]
    exact hflush.symm
  rcases hcases with hbroken | ⟨l', hholds, -, hun, hindexed, hcurrent, hkey⟩
  · exact absurd (by rw [hr']; exact hok₁) hbroken.1
  · exact ⟨r', l', hflush, hopen', hholds, hun, hindexed, hcurrent, hkey, by rw [hr']; exact hbytes⟩

/-- A record takes no more than fifteen bytes besides its key and value. -/
theorem Record.bytes_length_le (r : Record) : r.bytes.length ≤ 15 + r.key.length + r.value.length := by
  have hheader : ∀ v, (encodeVarint32 v).length ≤ 5 := by
    intro v
    rw [encodeVarint32_eq]
    exact Base128.encode_length_le 4 _ (lt_of_lt_of_le v.toNat_lt (by decide))
  have h1 := hheader (UInt32.ofNat r.shared)
  have h2 := hheader (UInt32.ofNat (r.key.length - r.shared))
  have h3 := hheader (UInt32.ofNat r.value.length)
  rw [bytes_length, header, List.length_append, List.length_append]
  omega

/-- Of one record there is one restart point, and nothing is shared. -/
theorem BlockShape.of_singleton {x : Record} {points : List ℕ} (h : BlockShape [x] points) :
    points = [0] ∧ x.shared = 0 := by
  have hzero : ∀ p ∈ points, p = 0 := by
    intro p hp
    obtain ⟨pre, r, post, hsplit, -, hlen⟩ := h.restart (List.cons_ne_nil x []) p hp
    cases pre with
    | nil => exact hlen.symm
    | cons y pre =>
      rw [List.cons_append, List.cons.injEq] at hsplit
      exact absurd hsplit.2.symm (by simp)
  have hfollows := (h.follows [] x [] rfl).le_prev
  refine ⟨?_, by simpa using hfollows⟩
  have hhead := h.head
  have hincreasing := h.increasing
  match points with
  | [] => exact absurd hhead (by simp)
  | [p] => rw [hzero p (by simp)]
  | p :: q :: points =>
    have hlt : p < q := (List.pairwise_cons.mp hincreasing).1 q List.mem_cons_self
    rw [hzero p (by simp), hzero q (by simp)] at hlt
    exact absurd hlt (lt_irrefl 0)

/-- The estimate for a builder of one record. -/
theorem Builds.estimate_singleton {b : BlockBuilder} {x : Record} {points : List ℕ}
    (h : Builds b [x] points) : b.currentSizeEstimate = x.bytes.length + 8 := by
  rw [BlockBuilder.currentSizeEstimate, h.buffer, h.restarts, h.shape.of_singleton.1, recordsBytes_cons,
    recordsBytes_nil, List.append_nil]
  rfl

/-- Before the first entry there is nothing. -/
theorem Layout.eq_empty {snappy : Snappy} {file : WritableFile} {r : TableBuilder} {l : Layout}
    (h : Holds snappy file r l) (hrests : Rests l) (hentries : l.entries = []) : l = ⟨[], none, []⟩ := by
  rw [entries, List.append_eq_nil_iff] at hentries
  have hindexed : l.indexed = [] := by
    by_contra hne
    exact hrests hne hentries.2
  obtain ⟨hpending, hcurrent⟩ := List.append_eq_nil_iff.mp hentries.2
  obtain ⟨indexed, pending, current⟩ := l
  cases pending with
  | none =>
    rw [List.map_eq_nil_iff] at hcurrent
    dsimp only at hindexed hcurrent
    rw [hindexed, hcurrent]
  | some b =>
    have hne := (h.pending b rfl).2.1
    simp only [Option.toList_some, List.flatMap_cons, List.flatMap_nil, List.append_nil,
      StoredBlock.entries, List.map_eq_nil_iff] at hpending
    exact absurd hpending hne

/-- **`Add` on a new builder**, of an entry that fills the data block. -/
theorem add_first_roomy (snappy : Snappy) {options : Options}
    (hinterval : 1 ≤ options.blockRestartInterval) {key : Bytes} (value : Bytes)
    (hfull : options.blockSize.toNat ≤ key.length) (hroom : key.length + value.length < 2 ^ 63) :
    ∃ r₀ r b, TableBuilder.new options = .ok r₀ ∧ r₀.add snappy .roomy key value = .ok r ∧
      r.closed = false ∧ Holds snappy .roomy r ⟨[], some b, []⟩ ∧ b.entries = [(key, value)] ∧
      r.lastKey = key ∧ r.appends.bytes.length ≤ key.length + value.length + 28 := by
  obtain ⟨r₀, hnew, hbytes₀, hok₀⟩ : ∃ r₀, TableBuilder.new options = .ok r₀ ∧
      r₀.appends.bytes.length = 0 ∧ r₀.status = .ok := by
    obtain ⟨block, hblock, -⟩ := builds_new hinterval
    rw [TableBuilder.new, hblock]
    exact ⟨_, rfl, rfl, rfl⟩
  obtain ⟨hready, hoptions⟩ : Ready snappy .roomy [] r₀ ∧ r₀.options = options := new_ready hnew
  obtain ⟨l, hholds, -, hrests, hentries⟩ := hready.layout hok₀
  obtain rfl := Layout.eq_empty hholds hrests hentries
  have hcut : r₀.addCut snappy .roomy key value = .ok r₀ := by
    rw [TableBuilder.addCut, if_neg (by rw [hholds.numEntries]; exact lt_irrefl 0)]
    rfl
  have hindex : r₀.addIndex key = .ok r₀ := by
    rw [TableBuilder.addIndex, if_neg (by rw [hholds.pendingFlag]; exact Bool.false_ne_true)]
    rfl
  have habove : ∀ e ∈ Layout.entries ⟨[], none, []⟩, e.1 < key := by
    simp [Layout.entries, Layout.unindexed]
  obtain ⟨dataBlock, shared, hadd, hholds₁, -, -⟩ :=
    addRecord_holds hholds rfl (by simp) habove value
  obtain ⟨points, hdata⟩ := hholds₁.data
  have hestimate : dataBlock.currentSizeEstimate = _ := hdata.estimate_singleton
  have hshared : shared = 0 := hdata.shape.of_singleton.2
  have hlow := (Record.mk shared key value).bytes_length
  have hhigh := (Record.mk shared key value).bytes_length_le
  dsimp only at hlow hhigh
  obtain ⟨r, l', hflush, hopen, hholds', hun, hindexed, hcurrent, hkey, hbytes⟩ :=
    flush_roomy hholds₁ hready.isOpen (by simp) (by dsimp only; omega)
  obtain ⟨indexed, pending, current⟩ := l'
  dsimp only at hindexed hcurrent
  subst hindexed hcurrent
  have hpending : ∃ b, pending = some b ∧ b.entries = [(key, value)] := by
    cases pending with
    | none => simp [Layout.unindexed] at hun
    | some b => exact ⟨b, rfl, by simpa [Layout.unindexed, Record.entry] using hun⟩
  obtain ⟨b, rfl, hentries⟩ := hpending
  refine ⟨r₀, r, b, hnew, ?_, hopen, hholds', hentries, hkey, by dsimp only at hbytes; omega⟩
  rw [TableBuilder.add, check_of hready.isOpen, Checked.ok_bind, if_neg (by rw [hok₀]; simp), hcut,
    Checked.ok_bind, hindex, Checked.ok_bind, TableBuilder.addEntry, hadd, Checked.ok_bind]
  dsimp only
  rw [if_pos (by rw [hoptions]; omega)]
  exact hflush

theorem finishPending_appends {r r' : TableBuilder} (h : r.finishPending = .ok r') :
    r'.appends = r.appends := by
  rw [TableBuilder.finishPending] at h
  split_ifs at h
  · rw [TableBuilder.addPendingEntry] at h
    dsimp only at h
    cases hencode : r.pendingHandle.encodeTo [] with
    | error e => simp [hencode] at h
    | ok handleEncoding =>
      rw [hencode, Checked.ok_bind] at h
      cases hadd : r.indexBlock.add (findShortSuccessor r.lastKey) handleEncoding with
      | error e => simp [hadd] at h
      | ok indexBlock =>
        simp only [hadd, Checked.ok_bind, Checked.pure_eq, Except.ok.injEq] at h
        rw [← h]
  · cases h
    rfl

/-- The metaindex block takes thirteen bytes. -/
theorem finishMetaindex_roomy {snappy : Snappy} {r : TableBuilder} {l : Layout}
    (h : Holds snappy .roomy r l) (hroom : r.appends.bytes.length + 13 < 2 ^ 64 - 1) :
    ∃ r' handle, r.finishMetaindex snappy .roomy = .ok (r', handle) ∧ r'.status = .ok ∧
      r'.appends.bytes.length ≤ r.appends.bytes.length + 13 := by
  obtain ⟨block, hblock, -, hbuilds⟩ := builds_new h.interval
  have hestimate : block.currentSizeEstimate = 8 := by
    rw [BlockBuilder.currentSizeEstimate, hbuilds.buffer, hbuilds.restarts]
    rfl
  obtain ⟨r', handle, hwrite, hok, hbytes⟩ :=
    writeBlock_roomy snappy h.toLogged h.ok block (by omega)
  refine ⟨r', handle, ?_, hok, by omega⟩
  rw [TableBuilder.finishMetaindex, if_pos (by rw [h.ok]; rfl), hblock, Checked.ok_bind, hwrite]
  rfl

/-- An index block of one entry. -/
theorem finishIndex_roomy {snappy : Snappy} {r : TableBuilder} {l : Layout} {key : Bytes}
    {b : StoredBlock} (hlaid : Laid snappy .roomy l r) (hok : r.status = .ok)
    (hfinal : l.finalIndex r.lastKey = [(key, b)])
    (hroom : r.appends.bytes.length + key.length + 48 < 2 ^ 64 - 1) :
    ∃ r' handle, r.finishIndex snappy .roomy = .ok (r', handle) ∧ r'.status = .ok ∧
      r'.appends.bytes.length ≤ r.appends.bytes.length + key.length + 48 := by
  have hS : Tolerates .roomy fun _ => False := .inl WritableFile.roomy_addressable
  obtain ⟨hholds, hlast, hcurrent⟩ := hlaid hok
  have hpending := finishPending_holds hS hholds hlast hcurrent
  cases hr₁ : r.finishPending with
  | error e =>
    rw [hr₁] at hpending
    exact hpending.elim
  | ok r₁ =>
    rw [hr₁] at hpending
    obtain ⟨-, hholds₁, -⟩ := hpending
    have happends := congrArg (fun appends => (Appends.bytes appends).length) (finishPending_appends hr₁)
    obtain ⟨rs, points, hindex, hrs⟩ := hholds₁.index
    rw [hfinal] at hrs
    obtain ⟨x, rfl, hx⟩ := List.map_eq_singleton_iff.mp hrs
    have hestimate := hindex.estimate_singleton
    have hlength := x.bytes_length_le
    rw [show x.key = key from congrArg Prod.fst hx,
      show x.value = b.handle.encoding from congrArg Prod.snd hx] at hlength
    have henc := b.handle.encoding_length_le
    obtain ⟨r₂, handle, hwrite, hok₂, hbytes⟩ :=
      writeBlock_roomy snappy hholds₁.toLogged hholds₁.ok r₁.indexBlock (by omega)
    refine ⟨{ r₂ with indexBlock := r₁.indexBlock.finish.reset }, handle, ?_, hok₂, by
      dsimp only
      omega⟩
    rw [TableBuilder.finishIndex, if_pos (by rw [hok]; rfl), hr₁, Checked.ok_bind, hwrite]
    rfl

/-- The footer. -/
theorem finishFooter_roomy {r : TableBuilder} {footer : Footer} {data : Bytes} (hok : r.status = .ok)
    (hencode : footer.encodeTo [] = .ok data)
    (hroom : r.appends.bytes.length + data.length < 2 ^ 64 - 1) :
    ∃ r', r.finishFooter .roomy footer.metaindexHandle footer.indexHandle = .ok r' ∧
      r'.status = .ok := by
  refine ⟨r.appendFooter .roomy data, ?_, ?_⟩
  · rw [TableBuilder.finishFooter, if_pos (by rw [hok]; rfl), hencode]
    rfl
  · rw [TableBuilder.appendFooter]
    simp only [append_roomy hroom, Status.isOk_ok, if_true]

/-- **`Finish` behind one block of one entry**, of which no index entry has been made. -/
theorem finish_roomy {snappy : Snappy} {r : TableBuilder} {b : StoredBlock} {key value : Bytes}
    (hopen : r.closed = false) (h : Holds snappy .roomy r ⟨[], some b, []⟩)
    (hentries : b.entries = [(key, value)]) (hkey : r.lastKey = key)
    (hroom : r.appends.bytes.length + (findShortSuccessor key).length < 2 ^ 63) :
    ∃ r' c, r.finish snappy .roomy = .ok r' ∧ r'.status = .ok ∧ Logged .roomy r' ∧
      Finished snappy r' [(key, value)] c ∧ Placed r' c ∧
      c.indexed = [(findShortSuccessor key, b)] := by
  have hS : Tolerates .roomy fun _ => False := .inl WritableFile.roomy_addressable
  have hall : Layout.entries ⟨[], some b, []⟩ = [(key, value)] := by
    simp [Layout.entries, Layout.unindexed, hentries]
  have hlast : LastKey r ⟨[], some b, []⟩ := by
    intro e he
    rw [hall, List.getLast?_singleton, Option.some.injEq] at he
    rw [hkey, ← he]
  obtain ⟨points, hdata⟩ := h.data
  have hflush : r.flush snappy .roomy = .ok r := by
    rw [TableBuilder.flush, check_of hopen, Checked.ok_bind, if_neg (by rw [h.ok]; simp),
      if_pos ((empty_iff hdata).mpr rfl)]
    rfl
  have hlaid : Laid snappy .roomy ⟨[], some b, []⟩ { r with closed := true } :=
    fun _ => ⟨h.close, hlast, rfl⟩
  -- the metaindex block
  obtain ⟨r₂, handle, hM, hok₂, hbytes₂⟩ :=
    finishMetaindex_roomy h.close (by dsimp only; omega)
  have hmeta := finishMetaindex_laid (S := fun _ => False) hlaid
  rw [hM] at hmeta
  obtain ⟨hlaid₂, hmeta⟩ := hmeta
  obtain ⟨-, m, hm, rfl, hbehind⟩ := hmeta hok₂
  have hkey₂ : r₂.lastKey = key := (hlaid₂ hok₂).2.1 (key, value) (by rw [hall]; rfl)
  have hfinal : Layout.finalIndex ⟨[], some b, []⟩ r₂.lastKey = [(findShortSuccessor key, b)] := by
    rw [hkey₂]
    rfl
  -- the index block
  obtain ⟨r₄, handle', hI, hok₄, hbytes₄⟩ :=
    finishIndex_roomy hlaid₂ hok₂ hfinal (by dsimp only at hbytes₂ ⊢; omega)
  have hindexed := finishIndex_indexed hS hlaid₂
  rw [hI] at hindexed
  obtain ⟨-, hlog, hkeep, index, hindexed, rfl, hencoded⟩ := hindexed hok₄
  rw [hfinal, hall] at hindexed
  -- the footer
  have hencode := (Footer.encodeTo_ensures ⟨m.handle, index.handle⟩
    (handle_isSet hS (hkeep m hm) hlog hok₄)
    (handle_isSet hS hindexed.indexStored hlog hok₄)).eq_ok
  have hlen : (Footer.encoding ⟨m.handle, index.handle⟩).length = 48 := Footer.encoding_length _
  obtain ⟨r', hF, hok⟩ :=
    finishFooter_roomy hok₄ hencode (by dsimp only at hbytes₂ hbytes₄; omega)
  have hfooter := finishFooter_finished (S := fun _ => False)
    (c := ⟨[(findShortSuccessor key, b)], m, index⟩) hS hlog hok₄ hindexed (hkeep m hm)
  rw [hF] at hfooter
  obtain ⟨hsame, hfooter⟩ := hfooter
  obtain ⟨hlog', hfinished⟩ := hfooter hok
  refine ⟨r', _, ?_, hok, hlog', hfinished, ⟨?_, ?_⟩, rfl⟩
  · rw [TableBuilder.finish, hflush, Checked.ok_bind, check_of hopen, Checked.ok_bind]
    dsimp only
    rw [hM, Checked.ok_bind]
    dsimp only
    rw [hI, Checked.ok_bind]
    exact hF
  · intro d hd
    rw [List.mem_singleton.mp hd]
    exact hbehind b (by simp [Layout.blocks])
  · rw [hsame]
    exact hencoded

/-! ### Wide keys -/

/-- A key of bytes `0xff`, as many as a 32-bit length calls none. -/
structure Wide (key : Bytes) : Prop where
  all : ∀ b ∈ key, b = 0xff
  length : key.length % 2 ^ 32 = 0
  ne_nil : key ≠ []

/-- With one restart point, and that behind the entries, there is nothing to find. -/
theorem Iter.seek_past {it : Iter} {p : UInt32} (hnum : it.numRestarts = 1)
    (hpoint : it.getRestartPoint 0 = .ok p) (hpast : it.restarts ≤ p) {fuel : ℕ} (hfuel : 0 < fuel)
    (target : Bytes) :
    ∃ it', it.seek fuel target = .ok it' ∧ it'.valid = false ∧ it'.status = it.status := by
  obtain ⟨fuel, rfl⟩ : ∃ m, fuel = m + 1 := ⟨fuel - 1, by omega⟩
  have hsearch : it.searchTurn target (0, it.numRestarts - 1) = .ok (.inr (some 0)) := by
    rw [Iter.searchTurn, hnum, if_neg (by decide)]
  have hstart : it.seekToRestartPoint 0
      = .ok { it with key := [], restartIndex := 0, value := some (p.toNat, 0) } := by
    rw [Iter.seekToRestartPoint, hpoint]
    rfl
  have hnext : Iter.nextEntryOffset { it with key := [], restartIndex := 0, value := some (p.toNat, 0) }
      = .ok p := by
    rw [Iter.nextEntryOffset]
    exact congrArg Except.ok UInt32.ofNat_toNat
  refine ⟨{ it with
    current := it.restarts, restartIndex := it.numRestarts, key := [], value := some (p.toNat, 0) },
    ?_, ?_, rfl⟩
  · rw [Iter.seek, loop, hsearch, Access.ok_bind]
    dsimp only
    rw [hstart, Access.ok_bind, loop, Iter.scanTurn, Iter.parseNextKey, hnext, Access.ok_bind]
    dsimp only
    rw [if_pos hpast]
    rfl
  · simp [Iter.valid]

section

variable {key value : Bytes}

theorem Wide.length_ge (h : Wide key) : 2 ^ 32 ≤ key.length := by
  have hpos := List.length_pos_iff.mpr h.ne_nil
  have hmod := h.length
  omega

/-- The header of a wide key calls it empty. -/
theorem Wide.header (h : Wide key) (hvalue : value.length < 128) :
    (Record.mk 0 key value).header = [0, 0, UInt8.ofNat value.length] := by
  have hlen : UInt32.ofNat key.length = 0 := by
    apply UInt32.toNat_inj.mp
    rw [UInt32.toNat_ofNat', h.length]
    rfl
  have hvlen : (UInt32.ofNat value.length).toNat = value.length := by
    rw [UInt32.toNat_ofNat', Nat.mod_eq_of_lt (by omega)]
  rw [Record.header]
  dsimp only
  rw [Nat.sub_zero, hlen, show UInt32.ofNat 0 = 0 from rfl, encodeVarint32_eq, encodeVarint32_eq,
    hvlen, Base128.encode_of_lt hvalue, show (0 : UInt32).toNat = 0 from rfl,
    Base128.encode_of_lt (by decide)]
  rfl

/-- The block of a wide key has its restart array far behind where the reader looks for it. -/
theorem Wide.restartOffset (h : Wide key) (hvalue : value.length < 128) :
    ∃ block, Block.new (blockBytes [⟨0, key, value⟩] [0]) = .ok block ∧
      block.newIterator = .ok (.iter (Iter.new (blockBytes [⟨0, key, value⟩] [0])
        (UInt32.ofNat (3 + value.length)) 1)) := by
  have hge := h.length_ge
  have hmod := h.length
  have hrec : (recordsBytes [⟨0, key, value⟩]).length = 3 + key.length + value.length := by
    rw [recordsBytes_cons, recordsBytes_nil, List.append_nil, Record.bytes_length, h.header hvalue]
    rfl
  have hlen := blockBytes_length [⟨0, key, value⟩] [0]
  rw [hrec, List.length_singleton] at hlen
  have hcount : decodeFixed32 (blockBytes [⟨0, key, value⟩] [0])
      ((blockBytes [⟨0, key, value⟩] [0]).length - 4) = .ok 1 :=
    decodeFixed32_putFixed32 (hasAt_count _ _)
  have hread : ∀ offset, Block.numRestarts ⟨blockBytes [⟨0, key, value⟩] [0],
      (blockBytes [⟨0, key, value⟩] [0]).length, offset⟩ = .ok 1 := by
    intro offset
    rw [Block.numRestarts, if_pos (by dsimp only; omega)]
    exact hcount
  have hoffset : UInt32.ofNat ((blockBytes [⟨0, key, value⟩] [0]).length - 8)
      = UInt32.ofNat (3 + value.length) := by
    apply UInt32.toNat_inj.mp
    rw [UInt32.toNat_ofNat', UInt32.toNat_ofNat']
    omega
  refine ⟨⟨blockBytes [⟨0, key, value⟩] [0], (blockBytes [⟨0, key, value⟩] [0]).length,
    UInt32.ofNat (3 + value.length)⟩, ?_, ?_⟩
  · rw [Block.new]
    dsimp only
    rw [if_neg (by omega), hread, Access.ok_bind,
      if_neg (by rw [show (1 : UInt32).toNat = 1 from rfl]; omega), Access.pure_eq,
      show (1 + 1 : UInt32).toNat * 4 = 8 from rfl, hoffset]
  · rw [Block.newIterator, if_neg (by dsimp only; omega), hread, Access.ok_bind, if_neg (by decide)]
    rfl

/-- Seeking in it leads nowhere: what the reader takes for the restart array is part of the key. -/
theorem Wide.seek_invalid (h : Wide key) (hvalue : value.length < 128) {fuel : ℕ} (hfuel : 0 < fuel)
    (target : Bytes) :
    ∃ it, (BlockIterator.ops fuel).seek target (.iter (Iter.new (blockBytes [⟨0, key, value⟩] [0])
        (UInt32.ofNat (3 + value.length)) 1)) = .ok it ∧
      (BlockIterator.ops fuel).valid it = false ∧ (BlockIterator.ops fuel).status it = .ok := by
  have hge := h.length_ge
  have hrestarts : (UInt32.ofNat (3 + value.length)).toNat = 3 + value.length := by
    rw [UInt32.toNat_ofNat', Nat.mod_eq_of_lt (by omega)]
  have hkey : key = List.replicate value.length 0xff ++ ([0xff, 0xff, 0xff, 0xff]
      ++ List.replicate (key.length - value.length - 4) 0xff) := by
    rw [show ([0xff, 0xff, 0xff, 0xff] : Bytes) = List.replicate 4 0xff from rfl,
      List.replicate_append_replicate, List.replicate_append_replicate,
      show value.length + (4 + (key.length - value.length - 4)) = key.length by omega]
    exact List.eq_replicate_of_mem h.all
  have hat : (blockBytes [⟨0, key, value⟩] [0]).HasAt (3 + value.length)
      [0xff, 0xff, 0xff, 0xff] := by
    refine ⟨List.replicate (key.length - value.length - 4) 0xff ++ value
      ++ encodeFixed32 (UInt32.ofNat 0) ++ encodeFixed32 (UInt32.ofNat 1), ?_⟩
    have hblock : blockBytes [⟨0, key, value⟩] [0]
        = ([0, 0, UInt8.ofNat value.length] ++ List.replicate value.length 0xff)
          ++ ([0xff, 0xff, 0xff, 0xff] ++ (List.replicate (key.length - value.length - 4) 0xff
            ++ value ++ encodeFixed32 (UInt32.ofNat 0) ++ encodeFixed32 (UInt32.ofNat 1))) := by
      rw [blockBytes, recordsBytes_cons, recordsBytes_nil, List.append_nil, Record.bytes,
        h.header hvalue]
      dsimp only
      rw [List.drop_zero]
      nth_rewrite 1 [hkey]
      simp [List.append_assoc]
    have hskip : ([0, 0, UInt8.ofNat value.length] ++ List.replicate value.length 0xff : Bytes).length
        = 3 + value.length := by
      rw [List.length_append, List.length_replicate]
      rfl
    rw [hblock, ← hskip, List.drop_left]
  have hpoint : Iter.getRestartPoint (Iter.new (blockBytes [⟨0, key, value⟩] [0])
      (UInt32.ofNat (3 + value.length)) 1) 0 = .ok 0xffffffff := by
    rw [Iter.getRestartPoint]
    simp only [Iter.new, hrestarts]
    rw [if_pos (by decide), show (0 : UInt32).toNat * 4 = 0 from rfl, Nat.add_zero]
    exact decodeFixed32_of_hasAt hat
  have hpast : UInt32.ofNat (3 + value.length) ≤ 0xffffffff := by
    rw [UInt32.le_iff_toNat_le, hrestarts]
    rw [show (0xffffffff : UInt32).toNat = 2 ^ 32 - 1 from rfl]
    omega
  obtain ⟨it, hseek, hvalid, hstatus⟩ := Iter.seek_past rfl hpoint hpast hfuel target
  refine ⟨.iter it, ?_, hvalid, hstatus⟩
  change BlockIterator.iter <$> Iter.seek fuel target _ = _
  rw [hseek]
  rfl

theorem findShortSuccessor_of_all {key : Bytes} (h : ∀ b ∈ key, b = 0xff) :
    findShortSuccessor key = key := by
  induction key with
  | nil => rfl
  | cons b key ih =>
    rw [List.forall_mem_cons] at h
    rw [findShortSuccessor, if_neg (not_not.mpr h.1), ih h.2]

end

/-- **A wide key is stored and cannot be looked up**: `InternalGet` reports success and finds nothing,
and `ApproximateOffsetOf` is not the offset of the block that contains it. -/
theorem wide_key_lost {snappy : Snappy} (hsnappy : snappy.Lawful) {options : Options}
    (hinterval : 1 ≤ options.blockRestartInterval) {key : Bytes} (hkey : Wide key) (value : Bytes)
    (hfull : options.blockSize.toNat ≤ key.length) (hroom : key.length + value.length < 2 ^ 60) :
    ∃ outs r c b, buildTable options snappy .roomy [.add key value, .finish] = .ok (outs, r) ∧
      r.status = .ok ∧ Finished snappy r [(key, value)] c ∧ b ∈ c.indexed ∧
      (key, value) ∈ b.2.entries ∧
      ∀ (file : RandomAccessFile) (options' : Options) (fuel : ℕ), file.Stores r.appends.bytes →
        0 < fuel → ∃ t, Rep.openTable snappy options' file r.fileSize = .ok (.ok t) ∧
          t.internalGet snappy fuel key = .ok (.ok, []) ∧
          ∃ offset, t.approximateOffsetOf fuel key = .ok offset ∧ offset.toNat ≠ b.2.position := by
  obtain ⟨r₀, r₁, b, hnew, hadd, hopen, hholds, hentries, hlast, hbytes⟩ :=
    add_first_roomy snappy hinterval value hfull (by omega)
  have hsuccessor := findShortSuccessor_of_all hkey.all
  obtain ⟨r, c, hfinish, hok, hlog, hfinished, hplaced, hindexed⟩ :=
    finish_roomy hopen hholds hentries hlast (by rw [hsuccessor]; omega)
  rw [hsuccessor] at hindexed
  refine ⟨[r₁.status, r.status], r, c, (key, b), ?_, hok, hfinished, by rw [hindexed]; simp,
    by rw [hentries]; simp, fun file options' fuel hfile hfuel => ?_⟩
  · rw [buildTable, hnew, Checked.ok_bind]
    simp only [run, builderStep, TableBuilder.perform, hadd, hfinish, Checked.ok_bind, Checked.pure_eq]
    rfl
  have hout := WritableFile.roomy_addressable
  have hlt := hlog.addressable hout hok
  have hsize : r.fileSize.toNat = r.appends.bytes.length := by
    rw [TableBuilder.fileSize, hlog.offset hok, UInt64.toNat_ofNat', Nat.mod_eq_of_lt (by omega)]
  obtain ⟨t, htable, -, hmeta, hblock⟩ :=
    openTable_finished hsnappy hfinished hlog hok hout hfile options' hsize
  -- the index block is a block of the wide key
  have hrecords := hfinished.indexEntries
  rw [hindexed] at hrecords
  obtain ⟨x, hx, hxentry⟩ := List.map_eq_singleton_iff.mp hrecords
  have hshape := hfinished.indexStored.shape
  rw [hx] at hshape
  obtain ⟨hpoints, hshared⟩ := hshape.of_singleton
  have hxeq : x = ⟨0, key, b.handle.encoding⟩ := by
    obtain ⟨shared, k, v⟩ := x
    cases hxentry
    exact congrArg (fun s => Record.mk s _ _) hshared
  have hvalue : b.handle.encoding.length < 128 := by
    have hle := b.handle.encoding_length_le
    omega
  rw [StoredBlock.raw, hx, hpoints, hxeq] at hblock
  obtain ⟨block, hnewBlock, hiterator⟩ := hkey.restartOffset hvalue
  rw [hnewBlock, Except.ok.injEq] at hblock
  rw [hblock] at hiterator
  obtain ⟨it, hseek, hinvalid, hstatus⟩ := hkey.seek_invalid hvalue hfuel key
  have hinvalid' : ¬ (BlockIterator.ops fuel).valid it = true := by
    rw [hinvalid]
    exact Bool.false_ne_true
  refine ⟨t, htable, ?_, c.metaindex.handle.offset, ?_, ?_⟩
  · rw [Rep.internalGet, hiterator, Access.ok_bind, hseek, Access.ok_bind, if_neg hinvalid']
    simp only [Access.pure_eq, Access.ok_bind, hstatus]
    rfl
  · rw [Rep.approximateOffsetOf, hiterator, Access.ok_bind, hseek, Access.ok_bind, if_neg hinvalid',
      hmeta]
    rfl
  · rw [(hfinished.metaindexStored.position_lt hlog hok hout).1]
    have hbehind := hplaced.metaindex (key, b) (by rw [hindexed]; simp)
    rw [kBlockTrailerSize] at hbehind
    dsimp only at hbehind ⊢
    omega

end LearnNetlib.Table
