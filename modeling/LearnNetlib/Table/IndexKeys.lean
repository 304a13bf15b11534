import LearnNetlib.Table.BuilderRuns

/-!
# The keys of the index block

* `findShortestSeparator_length_le`, `length_findShortSuccessor_le` — they do not make a key longer;
* `TableBuilder.indexKeys` — the keys that a call gives to the index block;
* `Grows` — no call takes back what is written: `add_grows`, `finish_closed`;
* `Divides` — the index keys, each between its block and the next;
* `add_keeps`, `finish_over`, `run_reaches` — what holds with the index keys added so far, along a run;
* **`indexKeys_divide`** — the two functions, and the index keys of every run.
-/

namespace LearnNetlib.Table

open SortedCursor Runs

/-! ### Lengths -/

theorem length_findShortSuccessor_le (key : Bytes) : (findShortSuccessor key).length ≤ key.length := by
  induction key with
  | nil => exact le_rfl
  | cons byte key ih =>
    rw [findShortSuccessor]
    split_ifs
    · rw [List.length_singleton, List.length_cons]
      omega
    · rw [List.length_cons, List.length_cons]
      omega

theorem findShortestSeparator_length_le {start limit separator : Bytes}
    (h : findShortestSeparator start limit = .ok separator) : separator.length ≤ start.length := by
  rw [findShortestSeparator] at h
  dsimp only at h
  split_ifs at h with hprefix hbyte
  · cases h
    exact le_rfl
  · have hlt : sharedLength start limit < start.length := by omega
    rw [check] at h
    split_ifs at h
    · cases h
      rw [List.length_append, List.length_take, List.length_singleton]
      omega
    · cases h
  · cases h
    exact le_rfl

/-! ### The keys that are added -/

namespace TableBuilder

/-- The key that `addIndex` gives to the index block, if it does. -/
def indexKey (r : TableBuilder) (key : Bytes) : List Bytes :=
  if r.pendingIndexEntry then
    match findShortestSeparator r.lastKey key with
    | .ok lastKey => [lastKey]
    | .error _ => []
  else []

/-- The key that `finishPending` gives to it. -/
def finishKey (r : TableBuilder) : List Bytes :=
  if r.status.isOk ∧ r.pendingIndexEntry then [findShortSuccessor r.lastKey] else []

/-- The keys that a call gives to it: `Add` at most one, after the cut, and `Finish` at most one, after the
metaindex block. -/
def indexKeys (snappy : Snappy) (file : WritableFile) (r : TableBuilder) : Call → List Bytes
  | .add key value =>
    if r.status.isOk then
      match r.addCut snappy file key value with
      | .ok r => r.indexKey key
      | .error _ => []
    else []
  | .finish =>
    match r.flush snappy file with
    | .ok r =>
      match { r with closed := true }.finishMetaindex snappy file with
      | .ok (r, _) => r.finishKey
      | .error _ => []
    | .error _ => []
  | .flush => []
  | .abandon => []

/-! ### Nothing is taken back -/

/-- What was written stays written, and what was closed stays closed. -/
structure Grows (r r' : TableBuilder) : Prop where
  options : r'.options = r.options
  encoded : r.encoded ⊆ r'.encoded
  bytes : r.appends.bytes <+: r'.appends.bytes
  closed : r.closed = true → r'.closed = true

variable {snappy : Snappy} {file : WritableFile} {r r' r'' : TableBuilder}

theorem Grows.of_eq (hoptions : r'.options = r.options) (hencoded : r'.encoded = r.encoded)
    (happends : r'.appends = r.appends) (hclosed : r.closed = true → r'.closed = true) : Grows r r' :=
  ⟨hoptions, hencoded ▸ List.Subset.refl _, happends ▸ List.prefix_rfl, hclosed⟩

theorem Grows.trans (h : Grows r r') (h' : Grows r' r'') : Grows r r'' :=
  ⟨h'.options.trans h.options, fun _ hb => h'.encoded (h.encoded hb), h.bytes.trans h'.bytes,
    fun hclosed => h'.closed (h.closed hclosed)⟩

/-- A block stays in the file. -/
theorem Grows.in (h : Grows r r') {b : StoredBlock} (hb : b.In snappy r) : b.In snappy r' :=
  hb.mono h.options h.encoded h.bytes

theorem append_grows (file : WritableFile) (r : TableBuilder) (data : Bytes) :
    Grows r (r.append file data) := by
  refine ⟨rfl, List.Subset.refl _, ?_, id⟩
  rw [append, Appends.bytes_snoc]
  exact List.prefix_append _ _

theorem writeRawBlock_grows (file : WritableFile) (r : TableBuilder) (blockContents : Bytes)
    (type : CompressionType) : Grows r (r.writeRawBlock file blockContents type).1 := by
  have hfirst := append_grows file r blockContents
  have hsecond := append_grows file (r.append file blockContents) (blockTrailer blockContents type)
  rw [writeRawBlock]
  dsimp only
  split_ifs
  · exact (hfirst.trans hsecond).trans (.of_eq rfl rfl rfl id)
  · exact hfirst.trans hsecond
  · exact hfirst

theorem writeBlock_grows (block : BlockBuilder) :
    (r.writeBlock snappy file block).Ensures anyAssertion fun w => Grows r w.1 := by
  rw [writeBlock]
  refine Checked.Ensures.check_bind (.inr trivial) fun _ => Checked.Ensures.of_ok rfl ?_
  have hraw := writeRawBlock_grows file r (compressBlock snappy r.options.compression block.finish.buffer).1
    (compressBlock snappy r.options.compression block.finish.buffer).2
  refine hraw.trans ⟨rfl, ?_, List.prefix_rfl, id⟩
  exact List.subset_append_left _ _

theorem flush_grows : (r.flush snappy file).Ensures anyAssertion (Grows r) := by
  rw [flush]
  refine Checked.Ensures.check_bind (.inr trivial) fun _ => ?_
  split_ifs
  · exact Checked.Ensures.of_ok rfl (.of_eq rfl rfl rfl id)
  · refine Checked.Ensures.check_bind (.inr trivial) fun _ => ?_
    refine (writeBlock_grows r.dataBlock).bind fun w hw => Checked.Ensures.of_ok rfl ?_
    dsimp only
    split_ifs
    · exact hw.trans (.of_eq rfl rfl rfl id)
    · exact hw.trans (.of_eq rfl rfl rfl id)
  · exact Checked.Ensures.of_ok rfl (.of_eq rfl rfl rfl id)

theorem addPendingEntry_grows : r.addPendingEntry.Ensures anyAssertion (Grows r) := by
  rw [addPendingEntry]
  refine (ensures_any _).bind fun handleEncoding _ => ?_
  refine (ensures_any _).bind fun indexBlock _ => ?_
  exact Checked.Ensures.of_ok rfl (.of_eq rfl rfl rfl id)

theorem addCut_grows (key value : Bytes) :
    (r.addCut snappy file key value).Ensures anyAssertion (Grows r) := by
  rw [addCut]
  split_ifs
  · refine Checked.Ensures.check_bind (.inr trivial) fun _ => ?_
    dsimp only
    split_ifs
    · exact flush_grows
    · exact Checked.Ensures.of_ok rfl (.of_eq rfl rfl rfl id)
  · exact Checked.Ensures.of_ok rfl (.of_eq rfl rfl rfl id)

theorem addIndex_grows (key : Bytes) : (r.addIndex key).Ensures anyAssertion (Grows r) := by
  rw [addIndex]
  split_ifs
  · refine Checked.Ensures.check_bind (.inr trivial) fun _ => ?_
    refine (ensures_any _).bind fun lastKey _ => ?_
    have hkey : Grows r { r with lastKey } := .of_eq rfl rfl rfl id
    exact addPendingEntry_grows.mono fun r' h' => hkey.trans h'
  · exact Checked.Ensures.of_ok rfl (.of_eq rfl rfl rfl id)

theorem addEntry_grows (key value : Bytes) :
    (r.addEntry snappy file key value).Ensures anyAssertion (Grows r) := by
  rw [addEntry]
  refine (ensures_any _).bind fun dataBlock _ => ?_
  have hentry : Grows r { r with lastKey := key, numEntries := r.numEntries + 1, dataBlock } :=
    .of_eq rfl rfl rfl id
  dsimp only
  split_ifs
  · exact flush_grows.mono fun r' h' => hentry.trans h'
  · exact Checked.Ensures.of_ok rfl hentry

/-- **`Add` takes nothing back.** -/
theorem add_grows (key value : Bytes) : (r.add snappy file key value).Ensures anyAssertion (Grows r) := by
  rw [add]
  refine Checked.Ensures.check_bind (.inr trivial) fun _ => ?_
  split_ifs
  · refine (addCut_grows key value).bind fun r₁ h₁ => ?_
    refine (addIndex_grows key).bind fun r₂ h₂ => ?_
    exact (addEntry_grows key value).mono fun r₃ h₃ => (h₁.trans h₂).trans h₃
  · exact Checked.Ensures.of_ok rfl (.of_eq rfl rfl rfl id)

theorem finishMetaindex_grows :
    (r.finishMetaindex snappy file).Ensures anyAssertion fun w => Grows r w.1 := by
  rw [finishMetaindex]
  split_ifs
  · refine (ensures_any _).bind fun metaIndexBlock _ => ?_
    exact (writeBlock_grows metaIndexBlock).bind fun w hw => Checked.Ensures.of_ok rfl hw
  · exact Checked.Ensures.of_ok rfl (.of_eq rfl rfl rfl id)

theorem finishPending_grows : r.finishPending.Ensures anyAssertion (Grows r) := by
  rw [finishPending]
  split_ifs
  · have hkey : Grows r { r with lastKey := findShortSuccessor r.lastKey } := .of_eq rfl rfl rfl id
    exact addPendingEntry_grows.mono fun r' h' => hkey.trans h'
  · exact Checked.Ensures.of_ok rfl (.of_eq rfl rfl rfl id)

theorem finishIndex_grows : (r.finishIndex snappy file).Ensures anyAssertion fun w => Grows r w.1 := by
  rw [finishIndex]
  split_ifs
  · refine finishPending_grows.bind fun r₁ h₁ => ?_
    refine (writeBlock_grows r₁.indexBlock).bind fun w hw => Checked.Ensures.of_ok rfl ?_
    exact h₁.trans (hw.trans (.of_eq rfl rfl rfl id))
  · exact Checked.Ensures.of_ok rfl (.of_eq rfl rfl rfl id)

theorem finishFooter_grows (metaindexHandle indexHandle : BlockHandle) :
    (r.finishFooter file metaindexHandle indexHandle).Ensures anyAssertion (Grows r) := by
  rw [finishFooter]
  split_ifs
  · refine (ensures_any _).bind fun footerEncoding _ => ?_
    refine Checked.Ensures.of_ok rfl ((append_grows file r footerEncoding).trans ?_)
    rw [appendFooter]
    split_ifs
    · exact .of_eq rfl rfl rfl id
    · exact .of_eq rfl rfl rfl id
  · exact Checked.Ensures.of_ok rfl (.of_eq rfl rfl rfl id)

/-- The footer repairs nothing. -/
theorem finishFooter_ok (metaindexHandle indexHandle : BlockHandle) :
    (r.finishFooter file metaindexHandle indexHandle).Ensures anyAssertion fun r' =>
      r'.status = .ok → r.status = .ok := by
  by_cases hok : r.status = .ok
  · exact (ensures_any _).mono fun _ _ _ => hok
  · rw [finishFooter, if_neg fun hs => hok ((Status.isOk_iff _).mp hs)]
    exact Checked.Ensures.of_ok rfl id

theorem finish_closed : (r.finish snappy file).Ensures anyAssertion fun r' => r'.closed = true := by
  rw [finish]
  refine flush_grows.bind fun r₁ _ => Checked.Ensures.check_bind (.inr trivial) fun _ => ?_
  refine finishMetaindex_grows.bind fun w₂ h₂ => finishIndex_grows.bind fun w₃ h₃ => ?_
  exact (finishFooter_grows w₂.2 w₃.2).mono fun r' h' => h'.closed (h₃.closed (h₂.closed rfl))

end TableBuilder

/-! ### What the index keys are for -/

/-- The index block has an entry for each of `indexed`: the block that is built, or after `Finish` the one that
is stored. -/
def TableBuilder.HasIndex (snappy : Snappy) (r : TableBuilder) (indexed : List (Bytes × StoredBlock)) : Prop :=
  (∃ rs points, Builds r.indexBlock rs points ∧ rs.map Record.entry = Layout.indexEntries indexed) ∨
    ∃ index : StoredBlock, index.In snappy r ∧ index.entries = Layout.indexEntries indexed

/-- The entries are those of the blocks that have an index key, and the rest; the blocks are in the file, and
each index key is at or above the last key of its block, and below the first key of every later one and of the
rest. -/
structure Divides (snappy : Snappy) (r : TableBuilder) (es : List Entry)
    (indexed : List (Bytes × StoredBlock)) (rest : List Entry) : Prop where
  entries : es = contents StoredBlock.entries indexed ++ rest
  stored : ∀ b ∈ indexed, b.2.In snappy r
  last_le : ∀ b ∈ indexed, ∃ e, b.2.entries.getLast? = some e ∧ e.1 ≤ b.1
  lt_first : indexed.Pairwise fun b c => ∃ e, c.2.entries.head? = some e ∧ b.1 < e.1
  lt_rest : ∀ b ∈ indexed, ∀ e, rest.head? = some e → b.1 < e.1
  increasing : (indexed.map Prod.fst).Pairwise (· < ·)

/-! ### The invariant -/

variable {snappy : Snappy} {file : WritableFile} {r r' : TableBuilder} {l : Layout} {es : List Entry}
  {indexed : List (Bytes × StoredBlock)} {key : Bytes}

/-- The blocks that have an index key, and what follows them. -/
structure Over (snappy : Snappy) (r : TableBuilder) (indexed : List (Bytes × StoredBlock))
    (es : List Entry) : Prop where
  stored : ∀ b ∈ indexed, b.2.In snappy r
  full : ∀ b ∈ indexed, b.2.records ≠ []
  separated : Separated StoredBlock.entries indexed
  rest : ∃ rest, es = contents StoredBlock.entries indexed ++ rest ∧ ∀ b ∈ indexed, ∀ e ∈ rest, b.1 < e.1

theorem Over.grows (h : Over snappy r indexed es) (hgrows : r.Grows r') : Over snappy r' indexed es :=
  ⟨fun b hb => hgrows.in (h.stored b hb), h.full, h.separated, h.rest⟩

/-- One more entry behind them. -/
theorem Over.snoc (h : Over snappy r indexed es) {e : Entry} (hbelow : ∀ b ∈ indexed, b.1 < e.1) :
    Over snappy r indexed (es ++ [e]) := by
  obtain ⟨rest, rfl, hrest⟩ := h.rest
  refine ⟨h.stored, h.full, h.separated, rest ++ [e], List.append_assoc _ _ _, fun b hb e' he' => ?_⟩
  rcases List.mem_append.mp he' with he' | he'
  · exact hrest b hb e' he'
  · rw [List.mem_singleton.mp he']
    exact hbelow b hb

theorem Holds.over (h : Holds snappy file r l) (hfull : ∀ b ∈ l.indexed, b.2.records ≠ []) :
    Over snappy r l.indexed l.entries :=
  ⟨fun b hb => h.stored b.2 (List.mem_append_left _ (List.mem_map_of_mem hb)), hfull, h.separated,
    l.unindexed, rfl, h.below⟩

/-- The same, of blocks that had their index keys and of more. -/
theorem Holds.over_append (h : Holds snappy file r l) {more : List (Bytes × StoredBlock)}
    (hindexed : l.indexed = indexed ++ more) (hfull : ∀ b ∈ indexed, b.2.records ≠ [])
    (hmore : ∀ b ∈ more, b.2.records ≠ []) : Over snappy r (indexed ++ more) l.entries := by
  rw [← hindexed]
  refine h.over ?_
  rw [hindexed]
  exact List.forall_mem_append.mpr ⟨hfull, hmore⟩

/-- The keys separate the blocks. -/
theorem Over.exists_divides (h : Over snappy r indexed es) : ∃ rest, Divides snappy r es indexed rest := by
  obtain ⟨rest, hes, hrest⟩ := h.rest
  have hne (b : Bytes × StoredBlock) (hb : b ∈ indexed) : b.2.entries ≠ [] := by
    simpa [StoredBlock.entries] using h.full b hb
  have hfirst : indexed.Pairwise fun b c => ∃ e, c.2.entries.head? = some e ∧ b.1 < e.1 := by
    refine h.separated.pairwise.imp_of_mem fun {b c} _ hc hlt => ?_
    obtain ⟨e, entries, hentries⟩ := List.exists_cons_of_ne_nil (hne c hc)
    exact ⟨e, by rw [hentries]; rfl, hlt e (by rw [hentries]; exact List.mem_cons_self)⟩
  refine ⟨rest, hes, h.stored, fun b hb => ?_, hfirst, fun b hb e he => ?_, ?_⟩
  · have hlast := List.getLast?_eq_some_getLast (hne b hb)
    exact ⟨_, hlast, h.separated.le b hb _ (List.getLast_mem _)⟩
  · exact hrest b hb e (List.mem_of_mem_head? he)
  · rw [List.pairwise_map]
    refine hfirst.imp_of_mem fun {b c} _ hc => ?_
    rintro ⟨e, he, hlt⟩
    exact hlt.trans_le (h.separated.le c hc e (List.mem_of_mem_head? he))

/-- Between two calls every index key is below the last key added. -/
structure Keeps (snappy : Snappy) (file : WritableFile) (es : List Entry)
    (indexed : List (Bytes × StoredBlock)) (r : TableBuilder) : Prop
    extends ReadyWith snappy file es indexed r where
  blocks : Over snappy r indexed es
  below : ∀ b ∈ indexed, ∃ e ∈ es, b.1 < e.1

/-! ### Calls -/

/-- The index entry that `Add` makes is the one with the key it gives to the index block. -/
theorem Indexes.exists_more (h : Indexes r l key indexed) (hholds : Holds snappy file r l) :
    ∃ more : List (Bytes × StoredBlock), more.map Prod.fst = r.indexKey key ∧
      (∀ b ∈ more, b.2.records ≠ []) ∧ indexed = l.indexed ++ more := by
  rcases h with ⟨hnone, rfl⟩ | ⟨b, separator, hpending, hne, hseparator, rfl⟩
  · refine ⟨[], ?_, by simp, (List.append_nil _).symm⟩
    rw [TableBuilder.indexKey, hholds.pendingFlag, hnone]
    rfl
  · refine ⟨[(separator, b)], ?_, by simpa using hne, rfl⟩
    rw [TableBuilder.indexKey, hholds.pendingFlag, hpending, hseparator]
    rfl

section Calls

variable (h : Keeps snappy file es indexed r)

include h

theorem flush_keeps : (r.flush snappy file).Ensures anyAssertion (Keeps snappy file es indexed) :=
  ((flush_readyWith h.toReadyWith).and TableBuilder.flush_grows).mono fun _ h' =>
    ⟨h'.1, h.blocks.grows h'.2, h.below⟩

theorem Keeps.lt {e : Entry} (hsorted : Sorted (es ++ [e])) : ∀ b ∈ indexed, b.1 < e.1 := by
  intro b hb
  obtain ⟨e', he', hlt⟩ := h.below b hb
  exact hlt.trans ((sorted_append_iff.mp hsorted).2.2 e' he' e List.mem_cons_self)

/-- **`Add`** keeps the blocks, with the index key that it adds. -/
theorem add_keeps {value : Bytes} (hsorted : Sorted (es ++ [(key, value)])) :
    (r.add snappy file key value).Ensures anyAssertion fun r' => ∃ more : List (Bytes × StoredBlock),
      more.map Prod.fst = r.indexKeys snappy file (.add key value) ∧
        Keeps snappy file (es ++ [(key, value)]) (indexed ++ more) r' := by
  have hbelow := h.lt hsorted
  have hnew (more : List (Bytes × StoredBlock)) (hmore : ∀ b ∈ more, b.1 < key) :
      ∀ b ∈ indexed ++ more, ∃ e ∈ es ++ [(key, value)], b.1 < e.1 := by
    intro b hb
    refine ⟨(key, value), by simp, ?_⟩
    rcases List.mem_append.mp hb with hb | hb
    · exact hbelow b hb
    · exact hmore b hb
  by_cases hok : r.status = .ok
  · obtain ⟨l, hholds, hlast, hrests, rfl, rfl⟩ := h.layout hok
    have hkey : ∀ e ∈ l.entries, e.1 < key := fun e he =>
      (sorted_append_iff.mp hsorted).2.2 e he (key, value) List.mem_cons_self
    have hcases := add_cases (S := anyAssertion) (.inr ⟨trivial, trivial⟩) hholds hlast hrests h.isOpen hkey value
    refine (hcases.and (TableBuilder.add_grows key value)).mono fun r' h' => ?_
    obtain ⟨⟨r₁, hcut, hend⟩, hgrows⟩ := h'
    have hkeys : r.indexKeys snappy file (.add key value) = r₁.indexKey key := by
      rw [TableBuilder.indexKeys, if_pos ((Status.isOk_iff _).mpr hok), hcut]
    rw [hkeys]
    rcases hend with ⟨hbroken, hopen, hfailed⟩ |
      ⟨r₂, l₁, l₂, hholds₁, hindexed₁, hholds₂, hentries₂, hbelow₂, hindexes, hentry, hready⟩
    · refine ⟨[], ?_, ?_⟩
      · rw [TableBuilder.indexKey, hbroken.2.1]
        rfl
      · rw [List.append_nil]
        exact ⟨.of_failed hopen hfailed, (h.blocks.snoc hbelow).grows hgrows, by simpa using hnew [] (by simp)⟩
    · obtain ⟨more, hmore, hfull, hindexed₂⟩ := hindexes.exists_more hholds₁
      rw [hindexed₁] at hindexed₂
      rw [hindexed₂] at hready
      have hover := hholds₂.over_append hindexed₂ h.blocks.full hfull
      rw [hentries₂] at hover
      rw [hindexed₂] at hbelow₂
      have hgrows₂ := @TableBuilder.addEntry_grows snappy file r₂ key value
      rw [hentry] at hgrows₂
      exact ⟨more, hmore, hready, (hover.snoc hbelow₂).grows hgrows₂,
        hnew more fun b hb => hbelow₂ b (List.mem_append_right _ hb)⟩
  · refine Checked.Ensures.of_ok (TableBuilder.add_failed hok h.isOpen key value) ⟨[], ?_, ?_⟩
    · have hnot : ¬ r.status.isOk = true := fun hs => hok ((Status.isOk_iff _).mp hs)
      exact (if_neg hnot).symm
    · rw [List.append_nil]
      exact ⟨.of_failed h.isOpen hok, h.blocks.snoc hbelow, by simpa using hnew [] (by simp)⟩

end Calls

/-- The flush of `Finish`. -/
theorem flush_laid (h : Keeps snappy file es indexed r) :
    (r.flush snappy file).Ensures anyAssertion fun r' => Over snappy r' indexed es ∧
      ∃ l, Laid snappy file l r' ∧ (r'.status = .ok → l.entries = es ∧ l.indexed = indexed) := by
  refine (Checked.Ensures.and ?_ TableBuilder.flush_grows).mono fun r' h' => ⟨h.blocks.grows h'.2, h'.1⟩
  by_cases hok : r.status = .ok
  · obtain ⟨l, hholds, hlast, -, hentries₀, hindexed₀⟩ := h.layout hok
    obtain ⟨r', hflush, -, hbroken | ⟨l', hholds', hentries, -, hindexed, hcurrent, hkey⟩⟩ :=
      flush_holds hholds h.isOpen
    · exact Checked.Ensures.of_ok hflush
        ⟨l, fun hs => absurd hs hbroken.1, fun hs => absurd hs hbroken.1⟩
    · refine Checked.Ensures.of_ok hflush ⟨l', fun _ => ⟨hholds', ?_, hcurrent⟩,
        fun _ => ⟨hentries.trans hentries₀, hindexed.trans hindexed₀⟩⟩
      rw [LastKey, hentries, hkey]
      exact hlast
  · exact Checked.Ensures.of_ok (TableBuilder.flush_failed hok h.isOpen)
      ⟨⟨[], none, []⟩, fun hs => absurd hs hok, fun hs => absurd hs hok⟩

/-- The index block of `Finish`: every block has its key. -/
theorem finishIndex_over (h : Laid snappy file l r) (hok : r.status = .ok)
    (hfull : ∀ b ∈ l.indexed, b.2.records ≠ []) :
    (r.finishIndex snappy file).Ensures anyAssertion fun w =>
      Over snappy w.1 (l.finalIndex r.lastKey) l.entries := by
  obtain ⟨hholds, hlast, hcurrent⟩ := h hok
  rw [TableBuilder.finishIndex, if_pos ((Status.isOk_iff _).mpr hok)]
  refine (finishPending_holds (.inr ⟨trivial, trivial⟩) hholds hlast hcurrent).bind fun r₁ h₁ => ?_
  obtain ⟨-, hholds₁, hentries⟩ := h₁
  have hpending : ∀ b ∈ l.pending.toList.map fun b => (findShortSuccessor r.lastKey, b), b.2.records ≠ [] := by
    intro b hb
    obtain ⟨c, hc, rfl⟩ := List.mem_map.mp hb
    exact (hholds.pending c (Option.mem_toList.mp hc)).2.1
  have hover : Over snappy r₁ (l.finalIndex r.lastKey) l.entries := by
    have hover₁ := hholds₁.over_append rfl hfull hpending
    rw [Layout.entries, hentries] at hover₁
    simpa [Layout.unindexed, Layout.finalIndex] using hover₁
  refine (TableBuilder.writeBlock_grows r₁.indexBlock).bind fun w hw => Checked.Ensures.of_ok rfl ?_
  exact hover.grows (hw.trans (.of_eq rfl rfl rfl id))

/-- **`Finish`** gives the last block its key. -/
theorem finish_over (h : Keeps snappy file es indexed r) :
    (r.finish snappy file).Ensures anyAssertion fun r' => ∃ more : List (Bytes × StoredBlock),
      more.map Prod.fst = r.indexKeys snappy file .finish ∧ Over snappy r' (indexed ++ more) es ∧
        (r'.status = .ok → r'.HasIndex snappy (indexed ++ more)) := by
  rw [TableBuilder.finish]
  refine (flush_laid h).and_eq.bind fun r₁ h₁ => ?_
  obtain ⟨hflush, hover₁, l, hlaid, hl⟩ := h₁
  refine Checked.Ensures.check_bind (.inr trivial) fun _ => ?_
  have hclose : r₁.Grows { r₁ with closed := true } := .of_eq rfl rfl rfl fun _ => rfl
  have hlaid' : Laid snappy file l { r₁ with closed := true } := fun hok =>
    ⟨(hlaid hok).1.close, (hlaid hok).2⟩
  refine ((finishMetaindex_laid hlaid').and TableBuilder.finishMetaindex_grows).and_eq.bind fun w₂ h₂ => ?_
  obtain ⟨r₂, metaindexHandle⟩ := w₂
  obtain ⟨hmetaindex, ⟨hlaid₂, hok₂⟩, hgrows₂⟩ := h₂
  have hkeys : r.indexKeys snappy file .finish = r₂.finishKey := by
    simp only [TableBuilder.indexKeys, hflush, hmetaindex]
  have hover₂ := (hover₁.grows hclose).grows hgrows₂
  rw [hkeys]
  by_cases hok : r₂.status = .ok
  · obtain ⟨hentries, rfl⟩ := hl (hok₂ hok).1
    have hindex := (finishIndex_over hlaid₂ hok hover₂.full).and
      (finishIndex_indexed (S := anyAssertion) (.inr ⟨trivial, trivial⟩) hlaid₂)
    refine hindex.bind fun w₃ h₃ => ?_
    obtain ⟨hover₃, hindexed₃⟩ := h₃
    rw [hentries] at hover₃
    refine ((TableBuilder.finishFooter_grows metaindexHandle w₃.2).and
      (TableBuilder.finishFooter_ok metaindexHandle w₃.2)).mono fun r' h' => ?_
    refine ⟨l.pending.toList.map fun b => (findShortSuccessor r₂.lastKey, b), ?_, hover₃.grows h'.1,
      fun hok' => ?_⟩
    · rw [TableBuilder.finishKey, (hlaid₂ hok).1.pendingFlag, hok]
      cases l.pending <;> rfl
    · obtain ⟨-, -, -, index, hindexed, -, -⟩ := hindexed₃ (h'.2 hok')
      exact .inr ⟨index, h'.1.in hindexed.indexStored, hindexed.indexEntries⟩
  · have hnot : ¬ r₂.status.isOk = true := fun hs => hok ((Status.isOk_iff _).mp hs)
    simp only [TableBuilder.finishIndex, TableBuilder.finishFooter, if_neg hnot, Checked.pure_eq,
      Checked.ok_bind]
    refine Checked.Ensures.of_ok rfl ⟨[], ?_, ?_, fun hs => absurd hs hok⟩
    · rw [TableBuilder.finishKey, if_neg fun hand => hnot hand.1]
      rfl
    · rw [List.append_nil]
      exact hover₂

/-! ### Runs -/

/-- What holds in each state reached: of an open builder all of it. -/
structure Reaches (snappy : Snappy) (file : WritableFile) (es : List Entry)
    (indexed : List (Bytes × StoredBlock)) (r : TableBuilder) : Prop where
  blocks : Over snappy r indexed es
  hasIndex : r.status = .ok → r.HasIndex snappy indexed
  keeps : r.closed = false → Keeps snappy file es indexed r

theorem Keeps.hasIndex (h : Keeps snappy file es indexed r) (hok : r.status = .ok) :
    r.HasIndex snappy indexed := by
  obtain ⟨l, hholds, -, -, -, rfl⟩ := h.layout hok
  exact .inl hholds.index

theorem new_keeps {options : Options} (hnew : TableBuilder.new options = .ok r) :
    Keeps snappy file [] [] r := by
  have hready : Ready snappy file [] r := (new_ready hnew).1
  refine ⟨⟨hready.isOpen, fun hok => ?_⟩, ⟨by simp, by simp, trivial, [], rfl, by simp⟩, by simp⟩
  obtain ⟨l, hholds, hlast, hrests, hentries⟩ := hready.layout hok
  have hempty : l.unindexed = [] ∧ contents StoredBlock.entries l.indexed = [] := by
    rw [Layout.entries, List.append_eq_nil_iff] at hentries
    exact hentries.symm
  refine ⟨l, hholds, hlast, hrests, hentries, ?_⟩
  by_contra hne
  exact hrests hne hempty.1

theorem Keeps.reaches (h : Keeps snappy file es indexed r) : Reaches snappy file es indexed r :=
  ⟨h.blocks, h.hasIndex, fun _ => h⟩

/-- One call, with the index keys that it adds. -/
theorem step_reaches (h : Reaches snappy file es indexed r) {c : Call} (hsorted : Sorted (es ++ c.entries)) :
    (builderStep snappy file r c).Ensures anyAssertion fun w => ∃ more : List (Bytes × StoredBlock),
      more.map Prod.fst = r.indexKeys snappy file c ∧
        Reaches snappy file (es ++ c.entries) (indexed ++ more) w.2 := by
  by_cases hclosed : r.closed = true
  · obtain ⟨a, hperform⟩ := TableBuilder.perform_closed snappy file hclosed c
    rw [builderStep, hperform]
    trivial
  have hkeeps := h.keeps (by simpa using hclosed)
  cases c with
  | add key value =>
    refine (add_keeps hkeeps hsorted).bind fun r' h' => Checked.Ensures.of_ok rfl ?_
    obtain ⟨more, hmore, hkeeps'⟩ := h'
    exact ⟨more, hmore, hkeeps'.reaches⟩
  | flush =>
    refine (flush_keeps hkeeps).bind fun r' h' => Checked.Ensures.of_ok rfl ⟨[], rfl, ?_⟩
    rw [Call.entries, List.append_nil, List.append_nil]
    exact h'.reaches
  | finish =>
    refine ((finish_over hkeeps).and TableBuilder.finish_closed).bind fun r' h' => Checked.Ensures.of_ok rfl ?_
    obtain ⟨⟨more, hmore, hover, hindex⟩, hclosed'⟩ := h'
    rw [Call.entries, List.append_nil]
    exact ⟨more, hmore, hover, hindex, fun (hopen : r'.closed = false) =>
      absurd hclosed' (by simp [hopen])⟩
  | abandon =>
    refine Checked.Ensures.bind (P := fun r' => r' = { r with closed := true }) ?_ fun r' h' => ?_
    · rw [TableBuilder.perform, TableBuilder.abandon, check_of hkeeps.isOpen]
      exact Checked.Ensures.of_ok rfl rfl
    · subst h'
      refine Checked.Ensures.of_ok rfl ⟨[], rfl, ?_⟩
      rw [Call.entries, List.append_nil, List.append_nil]
      refine ⟨h.blocks.grows (.of_eq rfl rfl rfl fun _ => rfl), fun hok => ?_, fun hopen => absurd hopen (by simp)⟩
      obtain ⟨l, hholds, -, -, -, rfl⟩ := hkeeps.layout hok
      exact .inl hholds.index

/-- **Every run**, with the index keys that its calls add. -/
theorem run_reaches (h : Reaches snappy file es indexed r) {calls : List Call} {outs : List Status}
    (hsorted : Sorted (es ++ added calls)) (hrun : run (builderStep snappy file) r calls = .ok (outs, r')) :
    ∃ more : List (Bytes × StoredBlock),
      more.map Prod.fst = visits (TableBuilder.indexKeys snappy file) (builderStep snappy file) r calls ∧
        Reaches snappy file (es ++ added calls) (indexed ++ more) r' := by
  induction calls generalizing r es indexed outs with
  | nil =>
    simp only [run, Except.ok.injEq, Prod.mk.injEq] at hrun
    obtain ⟨-, rfl⟩ := hrun
    refine ⟨[], rfl, ?_⟩
    rw [added, List.flatMap_nil, List.append_nil, List.append_nil]
    exact h
  | cons c calls ih =>
    obtain ⟨o, r₁, outs₁, hstep, hrest, rfl⟩ := run_cons_eq_ok hrun
    rw [added_cons, ← List.append_assoc] at hsorted ⊢
    have hends := step_reaches h (sorted_append_iff.mp hsorted).1
    rw [hstep] at hends
    obtain ⟨more, hmore, hreaches⟩ := hends
    obtain ⟨more', hmore', hreaches'⟩ := ih hreaches hsorted hrest
    refine ⟨more ++ more', ?_, ?_⟩
    · rw [List.map_append, hmore, hmore', visits, hstep]
    · rw [← List.append_assoc]
      exact hreaches'

/-- **The index keys.**  A separator lies between its two keys and is no longer than the first; a short
successor is at or above its key and no longer.  So in every state that calls with increasing keys reach,
whatever appends fail, the keys given to the index block increase strictly, and each is at or above the last
key of its block and below the first key behind it; and unless an append has failed the index block has
exactly them. -/
theorem indexKeys_divide :
    (∀ start limit : Bytes, start < limit → ∃ separator,
      findShortestSeparator start limit = .ok separator ∧ start ≤ separator ∧ separator < limit ∧
        separator.length ≤ start.length) ∧
    (∀ key : Bytes, key ≤ findShortSuccessor key ∧ (findShortSuccessor key).length ≤ key.length) ∧
    ∀ (snappy : Snappy) (file : WritableFile) (options : Options) (r₀ : TableBuilder) (calls : List Call)
      (outs : List Status) (r : TableBuilder),
      TableBuilder.new options = .ok r₀ → Sorted (added calls) →
      run (builderStep snappy file) r₀ calls = .ok (outs, r) →
      ∃ indexed rest,
        indexed.map Prod.fst =
          visits (TableBuilder.indexKeys snappy file) (builderStep snappy file) r₀ calls ∧
        Divides snappy r (added calls) indexed rest ∧
        (r.status = .ok → r.HasIndex snappy indexed) := by
  refine ⟨fun start limit hlt => ?_, fun key => ?_, ?_⟩
  · obtain ⟨separator, hseparator, hle, hlt'⟩ := findShortestSeparator_spec hlt
    exact ⟨separator, hseparator, hle, hlt', findShortestSeparator_length_le hseparator⟩
  · exact ⟨le_findShortSuccessor key, length_findShortSuccessor_le key⟩
  · intro snappy file options r₀ calls outs r hnew hsorted hrun
    obtain ⟨indexed, hkeys, hreaches⟩ := run_reaches (new_keeps hnew).reaches hsorted hrun
    obtain ⟨rest, hdivides⟩ := hreaches.blocks.exists_divides
    exact ⟨indexed, rest, hkeys, hdivides, hreaches.hasIndex⟩

/-- Three entries in blocks of their own.  The first separator is shorter than what it separates; the second key
stays as it is, as its first byte is one below that of the third. -/
theorem indexKeys_divide_three :
    let calls : List Call := [.add [1, 2, 6] [7], .add [1, 5, 1] [8], .add [2, 9] [9], .finish]
    let file : WritableFile := ⟨fun _ _ => .ok⟩
    ∃ r₀ outs r, TableBuilder.new { blockSize := 1 } = .ok r₀ ∧
      run (builderStep Snappy.identity file) r₀ calls = .ok (outs, r) ∧
      ∃ indexed rest, indexed.map Prod.fst = ([[1, 3], [1, 5, 1], [3]] : List Bytes) ∧
        Divides Snappy.identity r (added calls) indexed rest := by
  intro calls file
  have hkeys : ((TableBuilder.new { blockSize := 1 }).toOption.map fun r₀ =>
      (visits (TableBuilder.indexKeys Snappy.identity file) (builderStep Snappy.identity file) r₀ calls,
        (run (builderStep Snappy.identity file) r₀ calls).toOption.isSome)) =
      some ([[1, 3], [1, 5, 1], [3]], true) := by decide +kernel
  have hsorted : Sorted (added calls) := by
    simp only [calls, added, Call.entries, List.flatMap_cons, List.flatMap_nil, List.append_nil,
      List.cons_append, List.nil_append, Sorted]
    decide
  obtain ⟨r₀, hnew⟩ : ∃ r₀, TableBuilder.new { blockSize := 1 } = .ok r₀ := ⟨_, rfl⟩
  rw [hnew, Except.toOption, Option.map_some, Option.some_inj, Prod.mk.injEq] at hkeys
  cases hrun : run (builderStep Snappy.identity file) r₀ calls with
  | error a =>
    rw [hrun] at hkeys
    exact absurd hkeys.2 Bool.false_ne_true
  | ok w =>
    obtain ⟨indexed, rest, hindexed, hdivides, -⟩ := indexKeys_divide.2.2 Snappy.identity file
      { blockSize := 1 } r₀ calls w.1 w.2 hnew hsorted hrun
    exact ⟨r₀, w.1, w.2, hnew, hrun, indexed, rest, hindexed.trans hkeys.1, hdivides⟩

end LearnNetlib.Table
