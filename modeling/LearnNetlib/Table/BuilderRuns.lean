import LearnNetlib.Table.Layout

/-!
# Runs of a `TableBuilder`

* `Ready` — between two calls: failed, or with a layout of the entries added;
* **`run_ready`** — all runs of `Add` and `Flush` with increasing keys keep it;
* `Finished` — the file that a successful `Finish` leaves: **`finish_finished`**;
* **`tableBuilder_safe`** — over all runs: one failed append is the last, the status is its status,
  the offset is the number of bytes written, and no assertion fires.
-/

namespace LearnNetlib.Table

open SortedCursor Runs

variable {snappy : Snappy} {file : WritableFile} {r r' : TableBuilder} {l : Layout}
  {S : Assertion → Prop}

/-- **Between two calls**: an open builder that has failed, or has a layout of the entries added. -/
structure Ready (snappy : Snappy) (file : WritableFile) (es : List Entry) (r : TableBuilder) : Prop
    where
  isOpen : r.closed = false
  layout : r.status = .ok →
    ∃ l, Holds snappy file r l ∧ LastKey r l ∧ Rests l ∧ l.entries = es

theorem Ready.of_failed {es : List Entry} (hopen : r.closed = false) (h : r.status ≠ .ok) :
    Ready snappy file es r :=
  ⟨hopen, fun hok => absurd hok h⟩

/-- The same with the blocks that have an index entry. -/
structure ReadyWith (snappy : Snappy) (file : WritableFile) (es : List Entry)
    (indexed : List (Bytes × StoredBlock)) (r : TableBuilder) : Prop where
  isOpen : r.closed = false
  layout : r.status = .ok →
    ∃ l, Holds snappy file r l ∧ LastKey r l ∧ Rests l ∧ l.entries = es ∧ l.indexed = indexed

section ReadyWith

variable {es : List Entry} {indexed : List (Bytes × StoredBlock)}

theorem ReadyWith.of_failed (hopen : r.closed = false) (h : r.status ≠ .ok) :
    ReadyWith snappy file es indexed r :=
  ⟨hopen, fun hok => absurd hok h⟩

theorem ReadyWith.ready (h : ReadyWith snappy file es indexed r) : Ready snappy file es r := by
  refine ⟨h.isOpen, fun hok => ?_⟩
  obtain ⟨l, hholds, hlast, hrests, hentries, -⟩ := h.layout hok
  exact ⟨l, hholds, hlast, hrests, hentries⟩

theorem Ready.exists_with (h : Ready snappy file es r) :
    ∃ indexed, ReadyWith snappy file es indexed r := by
  by_cases hok : r.status = .ok
  · obtain ⟨l, hholds, hlast, hrests, hentries⟩ := h.layout hok
    exact ⟨l.indexed, h.isOpen, fun _ => ⟨l, hholds, hlast, hrests, hentries, rfl⟩⟩
  · exact ⟨[], .of_failed h.isOpen hok⟩

/-- `Flush` adds nothing. -/
theorem flush_readyWith (h : ReadyWith snappy file es indexed r) :
    (r.flush snappy file).Ensures S (ReadyWith snappy file es indexed) := by
  by_cases hok : r.status = .ok
  · obtain ⟨l, hholds, hlast, hrests, rfl, rfl⟩ := h.layout hok
    obtain ⟨r', hflush, hopen, hbroken | ⟨l', hholds', hentries, hun, hindexed, -, hkey⟩⟩ :=
      flush_holds hholds h.isOpen
    · exact Checked.Ensures.of_ok hflush (.of_failed hopen hbroken.1)
    · refine Checked.Ensures.of_ok hflush ⟨hopen, fun _ => ⟨l', hholds', ?_, ?_, hentries, hindexed⟩⟩
      · rw [LastKey, hentries, hkey]
        exact hlast
      · rw [Rests, hun, hindexed]
        exact hrests
  · exact Checked.Ensures.of_ok (TableBuilder.flush_failed hok h.isOpen) h

theorem flush_ready (h : Ready snappy file es r) :
    (r.flush snappy file).Ensures S (Ready snappy file es) := by
  obtain ⟨indexed, hwith⟩ := h.exists_with
  exact (flush_readyWith hwith).mono fun r' h' => h'.ready

end ReadyWith

/-- `Add`, the cut before the entry. -/
theorem addCut_holds (h : Holds snappy file r l) (hlast : LastKey r l) (hrests : Rests l)
    (hopen : r.closed = false) {key : Bytes} (hkey : ∀ e ∈ l.entries, e.1 < key) (value : Bytes) :
    (r.addCut snappy file key value).Ensures S fun r' => r'.closed = false ∧
      (Broken r' ∨ ∃ l', Holds snappy file r' l' ∧ LastKey r' l' ∧ Rests l' ∧
        l'.entries = l.entries ∧ l'.indexed = l.indexed) := by
  have hstay : r.closed = false ∧ (Broken r ∨ ∃ l', Holds snappy file r l' ∧ LastKey r l' ∧
      Rests l' ∧ l'.entries = l.entries ∧ l'.indexed = l.indexed) := ⟨hopen, .inr ⟨l, h, hlast, hrests, rfl, rfl⟩⟩
  rw [TableBuilder.addCut]
  split_ifs with hnum
  · -- the key is above the last one
    have hne : l.entries ≠ [] := by
      intro hnil
      rw [h.numEntries, hnil] at hnum
      exact absurd hnum (by simp)
    obtain ⟨es, e, hes⟩ := (List.eq_nil_or_concat l.entries).resolve_left hne
    rw [List.concat_eq_append] at hes
    have horder : StringPiece.compare key r.lastKey > 0 := by
      rw [hlast e (by rw [hes]; simp), gt_iff_lt, StringPiece.compare_pos_iff]
      exact hkey e (by rw [hes]; simp)
    rw [check_of horder, Checked.ok_bind]
    dsimp only
    split_ifs
    · obtain ⟨r', hflush, hopen', hbroken | ⟨l', hholds', hentries, hun, hindexed, -, hkey'⟩⟩ :=
        flush_holds h hopen
      · exact Checked.Ensures.of_ok hflush ⟨hopen', .inl hbroken⟩
      · refine Checked.Ensures.of_ok hflush ⟨hopen', .inr ⟨l', hholds', ?_, ?_, hentries, hindexed⟩⟩
        · rw [LastKey, hentries, hkey']
          exact hlast
        · rw [Rests, hun, hindexed]
          exact hrests
    · exact Checked.Ensures.of_ok rfl hstay
  · exact Checked.Ensures.of_ok rfl hstay

/-- The entry, before the data block may be flushed. -/
theorem addRecord_holds (h : Holds snappy file r l) (hpending : l.pending = none) {key : Bytes}
    (hbelow : ∀ b ∈ l.indexed, b.1 < key) (hkey : ∀ e ∈ l.entries, e.1 < key) (value : Bytes) :
    ∃ dataBlock shared, r.dataBlock.add key value = .ok dataBlock ∧
      Holds snappy file { r with lastKey := key, numEntries := r.numEntries + 1, dataBlock }
        ⟨l.indexed, none, l.current ++ [⟨shared, key, value⟩]⟩ ∧
      Layout.entries ⟨l.indexed, none, l.current ++ [⟨shared, key, value⟩]⟩
        = l.entries ++ [(key, value)] ∧
      Layout.unindexed ⟨l.indexed, none, l.current ++ [⟨shared, key, value⟩]⟩ ≠ [] := by
  obtain ⟨points, hdata⟩ := h.data
  have hcurrent : l.current ≠ [] → lastKeyOf l.current < key := by
    intro hne
    obtain ⟨x, hx, hlast⟩ := exists_lastKey hne
    rw [hlast]
    refine hkey x.entry (List.mem_append_right _ (List.mem_append_right _ ?_))
    exact List.mem_map_of_mem hx
  obtain ⟨dataBlock, shared, points', hadd, -, hbuilds⟩ := add_builds hdata value hcurrent
  have hun : Layout.unindexed ⟨l.indexed, none, l.current ++ [⟨shared, key, value⟩]⟩
      = l.unindexed ++ [(key, value)] := by
    simp [Layout.unindexed, hpending, Record.entry]
  have hentries : Layout.entries ⟨l.indexed, none, l.current ++ [⟨shared, key, value⟩]⟩
      = l.entries ++ [(key, value)] := by
    rw [Layout.entries, hun, Layout.entries, List.append_assoc]
  have hblocks : Layout.blocks ⟨l.indexed, none, l.current ++ [⟨shared, key, value⟩]⟩
      = l.blocks := by
    simp [Layout.blocks, hpending]
  refine ⟨dataBlock, shared, hadd, ⟨h.toLogged.of_eq rfl rfl rfl, h.ok, h.interval, h.index,
    ⟨_, hbuilds⟩, ?_, by simp, ?_, ?_, h.separated, ?_, ?_, ?_⟩, hentries, by rw [hun]; simp⟩
  · change r.pendingIndexEntry = false
    rw [h.pendingFlag, hpending]
    rfl
  · rw [hentries, List.length_append, ← h.numEntries]
    rfl
  · rw [hentries, sorted_append_iff]
    refine ⟨h.sorted, List.pairwise_singleton _ _, ?_⟩
    intro e he e' he'
    rw [List.mem_singleton.mp he']
    exact hkey e he
  · intro b hb e he
    rw [hun] at he
    rcases List.mem_append.mp he with he | he
    · exact h.below b hb e he
    · rw [List.mem_singleton.mp he]
      exact hbelow b hb
  · rw [hblocks]
    intro b hb
    exact (h.stored b hb).mono rfl (List.Subset.refl _) List.prefix_rfl
  · rw [hblocks]
    exact h.ordered

/-- `Add`, the entry. -/
theorem addEntry_holds (h : Holds snappy file r l) (hpending : l.pending = none)
    (hopen : r.closed = false) {key : Bytes} (hbelow : ∀ b ∈ l.indexed, b.1 < key)
    (hkey : ∀ e ∈ l.entries, e.1 < key) (value : Bytes) :
    (r.addEntry snappy file key value).Ensures S
      (ReadyWith snappy file (l.entries ++ [(key, value)]) l.indexed) := by
  obtain ⟨dataBlock, shared, hadd, hholds, hentries, hun⟩ :=
    addRecord_holds h hpending hbelow hkey value
  have hadded : ReadyWith snappy file (l.entries ++ [(key, value)]) l.indexed
      { r with lastKey := key, numEntries := r.numEntries + 1, dataBlock } := by
    refine ⟨hopen, fun _ => ⟨_, hholds, ?_, fun _ => hun, hentries, rfl⟩⟩
    intro e he
    rw [hentries, List.getLast?_concat] at he
    cases he
    rfl
  rw [TableBuilder.addEntry, hadd, Checked.ok_bind]
  dsimp only
  split_ifs
  · exact flush_readyWith hadded
  · exact Checked.Ensures.of_ok rfl hadded

/-- `Add` after its first flush has failed. -/
theorem addEntry_broken (h : Broken r) (hopen : r.closed = false) (key value : Bytes) :
    (r.addEntry snappy file key value).Ensures S fun r' => r'.closed = false ∧ r'.status ≠ .ok := by
  obtain ⟨hfailed, -, points, hdata⟩ := h
  obtain ⟨dataBlock, shared, points', hadd, -, -⟩ :=
    add_builds hdata value fun hne : [] ≠ [] => (absurd rfl hne : lastKeyOf [] < key)
  rw [TableBuilder.addEntry, hadd, Checked.ok_bind]
  dsimp only
  split_ifs
  · exact Checked.Ensures.of_ok (TableBuilder.flush_failed hfailed hopen) ⟨hopen, hfailed⟩
  · exact Checked.Ensures.of_ok rfl ⟨hopen, hfailed⟩

/-- **What `Add` of a larger key does** while nothing has failed: it may cut the block, which may fail; else it
may give the block before an index entry; and then it adds the entry. -/
theorem add_cases (hS : Tolerates file S) (h : Holds snappy file r l) (hlast : LastKey r l)
    (hrests : Rests l) (hopen : r.closed = false) {key : Bytes} (hkey : ∀ e ∈ l.entries, e.1 < key)
    (value : Bytes) :
    (r.add snappy file key value).Ensures S fun r' => ∃ r₁, r.addCut snappy file key value = .ok r₁ ∧
      ((Broken r₁ ∧ r'.closed = false ∧ r'.status ≠ .ok) ∨
        ∃ r₂ l₁ l₂, Holds snappy file r₁ l₁ ∧ l₁.indexed = l.indexed ∧ Holds snappy file r₂ l₂ ∧
          l₂.entries = l.entries ∧ (∀ b ∈ l₂.indexed, b.1 < key) ∧ Indexes r₁ l₁ key l₂.indexed ∧
          r₂.addEntry snappy file key value = .ok r' ∧
          ReadyWith snappy file (l.entries ++ [(key, value)]) l₂.indexed r') := by
  rw [TableBuilder.add, check_of hopen, Checked.ok_bind, if_neg (by rw [h.ok]; exact not_not.mpr rfl)]
  refine (addCut_holds h hlast hrests hopen hkey value).and_eq.bind fun r₁ h₁ => ?_
  obtain ⟨hcut, hopen₁, hbroken | ⟨l₁, hholds₁, hlast₁, hrests₁, hentries₁, hindexed₁⟩⟩ := h₁
  · rw [TableBuilder.addIndex, hbroken.2.1]
    exact (addEntry_broken hbroken hopen₁ key value).mono fun r' h' => ⟨r₁, hcut, .inl ⟨hbroken, h'⟩⟩
  · rw [← hentries₁] at hkey
    refine (addIndex_holds hS hholds₁ hlast₁ hrests₁ hkey).bind fun r₂ h₂ => ?_
    obtain ⟨hopen₂, l₂, hholds₂, hentries₂, hpending₂, hbelow₂, hindexes⟩ := h₂
    rw [← hentries₂] at hkey
    refine (addEntry_holds hholds₂ hpending₂ (hopen₂.trans hopen₁) hbelow₂ hkey value).and_eq.mono
      fun r' h' => ⟨r₁, hcut, .inr ⟨r₂, l₁, l₂, hholds₁, hindexed₁, hholds₂, hentries₂.trans hentries₁,
        hbelow₂, hindexes, h'.1, ?_⟩⟩
    rw [← hentries₁, ← hentries₂]
    exact h'.2

/-- **`Add` of a larger key.** -/
theorem add_ready (hS : Tolerates file S) {es : List Entry} (h : Ready snappy file es r)
    {key value : Bytes} (hsorted : Sorted (es ++ [(key, value)])) :
    (r.add snappy file key value).Ensures S (Ready snappy file (es ++ [(key, value)])) := by
  by_cases hok : r.status = .ok
  · obtain ⟨l, hholds, hlast, hrests, rfl⟩ := h.layout hok
    have hkey : ∀ e ∈ l.entries, e.1 < key := fun e he =>
      (sorted_append_iff.mp hsorted).2.2 e he (key, value) List.mem_cons_self
    refine (add_cases hS hholds hlast hrests h.isOpen hkey value).mono fun r' h' => ?_
    obtain ⟨_, -, ⟨-, hopen, hfailed⟩ | ⟨_, _, _, -, -, -, -, -, -, -, hready⟩⟩ := h'
    · exact .of_failed hopen hfailed
    · exact hready.ready
  · exact Checked.Ensures.of_ok (TableBuilder.add_failed hok h.isOpen key value) (.of_failed h.isOpen hok)

/-- The layout of a new builder. -/
theorem new_ready {options : Options} (hnew : TableBuilder.new options = .ok r) :
    Ready snappy file [] r ∧ r.options = options := by
  have hbasic : Basic file r := TableBuilder.basic_new hnew
  rw [TableBuilder.new] at hnew
  by_cases hinterval : 1 ≤ options.blockRestartInterval
  · obtain ⟨block, hblock, hoptions, hbuilds⟩ := builds_new hinterval
    simp only [hblock, Checked.ok_bind, Checked.pure_eq, Except.ok.injEq] at hnew
    subst hnew
    have hindex : Builds { block with options := { options with blockRestartInterval := 1 } } []
        [0] := by
      refine ⟨hbuilds.shape, hbuilds.buffer, hbuilds.restarts, hbuilds.lastKey, hbuilds.finished,
        le_rfl, ?_, hbuilds.counter_nil⟩
      dsimp only
      rw [hbuilds.counter_nil rfl]
      decide
    refine ⟨⟨rfl, fun _ => ⟨⟨[], none, []⟩, ⟨hbasic.toLogged, rfl, hinterval, ⟨_, _, hindex, rfl⟩,
      ⟨_, hbuilds⟩, rfl, by simp, rfl, List.Pairwise.nil, trivial, by simp, by simp [Layout.blocks],
      List.Pairwise.nil⟩, ?_, ?_, rfl⟩⟩, rfl⟩
    · intro e he
      simp [Layout.entries, Layout.unindexed] at he
    · exact fun hne => absurd rfl hne
  · rw [BlockBuilder.new, check, if_neg hinterval] at hnew
    simp at hnew

/-! ### Runs of `Add` and `Flush` -/

/-- The entry that a call adds. -/
def Call.entries : Call → List Entry
  | .add key value => [(key, value)]
  | .flush => []
  | .finish => []
  | .abandon => []

/-- The entries that the calls add. -/
def added (calls : List Call) : List Entry := calls.flatMap Call.entries

theorem added_cons (c : Call) (calls : List Call) : added (c :: calls) = c.entries ++ added calls :=
  List.flatMap_cons

/-- `Finish` and `Abandon`, after which nothing may be called. -/
def Call.closes : Call → Bool
  | .add _ _ => false
  | .flush => false
  | .finish => true
  | .abandon => true

/-- One call of `Add` or `Flush`. -/
theorem step_ready (hS : Tolerates file S) {es : List Entry} (h : Ready snappy file es r) {c : Call}
    (hc : c.closes = false) (hsorted : Sorted (es ++ c.entries)) :
    (builderStep snappy file r c).Ensures S fun w => Ready snappy file (es ++ c.entries) w.2 := by
  cases c with
  | add key value =>
    exact (add_ready hS h hsorted).bind fun r' h' => Checked.Ensures.of_ok rfl h'
  | flush =>
    rw [Call.entries, List.append_nil]
    exact (flush_ready h).bind fun r' h' => Checked.Ensures.of_ok rfl h'
  | finish => exact absurd hc (by decide)
  | abandon => exact absurd hc (by decide)

/-- **Over all runs of `Add` and `Flush` with increasing keys** no assertion fires, and the builder
has a layout of the entries added. -/
theorem run_ready (hS : Tolerates file S) {es : List Entry} (h : Ready snappy file es r)
    {calls : List Call} (hcalls : ∀ c ∈ calls, c.closes = false)
    (hsorted : Sorted (es ++ added calls)) :
    Checked.Ensures S (run (builderStep snappy file) r calls) fun w =>
      Ready snappy file (es ++ added calls) w.2 := by
  induction calls generalizing r es with
  | nil =>
    rw [added, List.flatMap_nil, List.append_nil]
    exact h
  | cons c calls ih =>
    rw [added_cons, ← List.append_assoc] at hsorted ⊢
    have hstep := step_ready hS h (hcalls c List.mem_cons_self) (sorted_append_iff.mp hsorted).1
    rw [run]
    cases hres : builderStep snappy file r c with
    | error e =>
      rw [hres] at hstep
      exact hstep
    | ok w =>
      rw [hres] at hstep
      have hrest := ih hstep (fun c' hc' => hcalls c' (List.mem_cons_of_mem _ hc')) hsorted
      dsimp only
      cases hrun : run (builderStep snappy file) w.2 calls with
      | error e =>
        rw [hrun] at hrest
        exact hrest
      | ok w' =>
        rw [hrun] at hrest
        exact hrest

/-! ### `Finish` -/

/-- The blocks of a finished table. -/
structure Contents where
  indexed : List (Bytes × StoredBlock)
  metaindex : StoredBlock
  index : StoredBlock

/-- **Data blocks under separators, and the index block over them.** -/
structure Indexed (snappy : Snappy) (r : TableBuilder) (es : List Entry)
    (indexed : List (Bytes × StoredBlock)) (index : StoredBlock) : Prop where
  entries : contents StoredBlock.entries indexed = es
  separated : Separated StoredBlock.entries indexed
  sorted : Sorted es
  stored : ∀ b ∈ indexed, b.2.In snappy r
  ordered : (indexed.map Prod.snd).Pairwise (·.position < ·.position)
  indexStored : index.In snappy r
  indexEntries : index.entries = Layout.indexEntries indexed

/-- **A finished file**: the blocks, and the footer behind everything. -/
structure Finished (snappy : Snappy) (r : TableBuilder) (es : List Entry) (c : Contents) : Prop
    extends Indexed snappy r es c.indexed c.index where
  metaindexStored : c.metaindex.In snappy r
  footer : ∃ body, r.appends.bytes
    = body ++ Footer.encoding ⟨c.metaindex.handle, c.index.handle⟩

theorem Indexed.of_in {es : List Entry} {indexed : List (Bytes × StoredBlock)} {index : StoredBlock}
    (h : Indexed snappy r es indexed index)
    (hkeep : ∀ b : StoredBlock, b.In snappy r → b.In snappy r') :
    Indexed snappy r' es indexed index :=
  ⟨h.entries, h.separated, h.sorted, fun b hb => hkeep _ (h.stored b hb), h.ordered,
    hkeep _ h.indexStored, h.indexEntries⟩

/-- A block beside the data blocks leaves the layout alone. -/
theorem Holds.of_wrote (h : Holds snappy file r l) {bs : Bytes} (hwrote : Wrote file bs r r')
    (hok : r'.status = .ok) (hencoded : r.encoded ⊆ r'.encoded) : Holds snappy file r' l := by
  refine ⟨hwrote.logged, hok, ?_, ?_, ?_, ?_, ?_, ?_, h.sorted, h.separated, h.below, ?_,
    h.ordered⟩
  · rw [hwrote.frame]
    exact h.interval
  · rw [hwrote.frame]
    exact h.index
  · rw [hwrote.frame]
    exact h.data
  · rw [hwrote.frame]
    exact h.pendingFlag
  · rw [hwrote.frame]
    exact h.pending
  · rw [hwrote.frame]
    exact h.numEntries
  · exact fun b hb => (h.stored b hb).of_wrote hwrote hok hencoded

/-- Flushed and not yet closed: the layout with an empty data block. -/
def Flushed (snappy : Snappy) (file : WritableFile) (es : List Entry) (r : TableBuilder) : Prop :=
  r.status = .ok → ∃ l, Holds snappy file r l ∧ LastKey r l ∧ l.current = [] ∧ l.entries = es

theorem flush_flushed {es : List Entry} (h : Ready snappy file es r) :
    (r.flush snappy file).Ensures S fun r' => r'.closed = false ∧ Flushed snappy file es r' := by
  by_cases hok : r.status = .ok
  · obtain ⟨l, hholds, hlast, -, rfl⟩ := h.layout hok
    obtain ⟨r', hflush, hopen, hbroken | ⟨l', hholds', hentries, -, -, hcurrent, hkey⟩⟩ :=
      flush_holds hholds h.isOpen
    · exact Checked.Ensures.of_ok hflush ⟨hopen, fun hs => absurd hs hbroken.1⟩
    · refine Checked.Ensures.of_ok hflush ⟨hopen, fun _ => ⟨l', hholds', ?_, hcurrent, hentries⟩⟩
      rw [LastKey, hentries, hkey]
      exact hlast
  · exact Checked.Ensures.of_ok (TableBuilder.flush_failed hok h.isOpen)
      ⟨h.isOpen, fun hs => absurd hs hok⟩

theorem Holds.close (h : Holds snappy file r l) : Holds snappy file { r with closed := true } l :=
  ⟨h.toLogged.of_eq rfl rfl rfl, h.ok, h.interval, h.index, h.data, h.pendingFlag, h.pending,
    h.numEntries, h.sorted, h.separated, h.below,
    fun b hb => (h.stored b hb).mono rfl (List.Subset.refl _) List.prefix_rfl, h.ordered⟩

theorem Flushed.close {es : List Entry} (h : Flushed snappy file es r) :
    Flushed snappy file es { r with closed := true } := by
  intro hok
  obtain ⟨l, hholds, hlast, hcurrent, hentries⟩ := h hok
  exact ⟨l, hholds.close, hlast, hcurrent, hentries⟩

/-- The layout of a flushed builder, as long as nothing has failed. -/
def Laid (snappy : Snappy) (file : WritableFile) (l : Layout) (r : TableBuilder) : Prop :=
  r.status = .ok → Holds snappy file r l ∧ LastKey r l ∧ l.current = []

theorem Flushed.laid {es : List Entry} (h : Flushed snappy file es r) :
    ∃ l, Laid snappy file l r ∧ (r.status = .ok → l.entries = es) := by
  by_cases hok : r.status = .ok
  · obtain ⟨l, hholds, hlast, hcurrent, hentries⟩ := h hok
    exact ⟨l, fun _ => ⟨hholds, hlast, hcurrent⟩, fun _ => hentries⟩
  · exact ⟨⟨[], none, []⟩, fun hs => absurd hs hok, fun hs => absurd hs hok⟩

/-- The metaindex block is an empty block behind the data blocks. -/
theorem finishMetaindex_laid (h : Laid snappy file l r) :
    (r.finishMetaindex snappy file).Ensures S fun w => Laid snappy file l w.1 ∧
      (w.1.status = .ok → r.status = .ok ∧ ∃ m : StoredBlock, m.In snappy w.1 ∧ w.2 = m.handle ∧
        ∀ b ∈ l.blocks, b.position + b.stored.length + kBlockTrailerSize ≤ m.position) := by
  rw [TableBuilder.finishMetaindex]
  split_ifs with hok
  · rw [Status.isOk_iff] at hok
    obtain ⟨hholds, hlast, hcurrent⟩ := h hok
    obtain ⟨block, hblock, -, hbuilds⟩ := builds_new hholds.interval
    obtain ⟨⟨stored, type⟩, hpacked⟩ : ∃ p,
      compressBlock snappy r.options.compression block.finish.buffer = p := ⟨_, rfl⟩
    obtain ⟨r', hwrite, hwrote, hencoded⟩ :=
      TableBuilder.writeBlock_wrote snappy hholds.toLogged hok block hpacked
    rw [hblock, Checked.ok_bind, hwrite, Checked.ok_bind]
    refine Checked.Ensures.of_ok rfl ⟨fun hok' => ⟨?_, ?_, hcurrent⟩, fun hok' =>
      ⟨hok, _, StoredBlock.In.new hbuilds hpacked hwrote hok' hencoded, ?_, fun b hb =>
        (hholds.stored b hb).end_le⟩⟩
    · refine hholds.of_wrote hwrote hok' ?_
      rw [hencoded]
      exact List.subset_append_left _ _
    · rw [LastKey, hwrote.frame]
      exact hlast
    · rw [hholds.offset hok, StoredBlock.handle]
  · rw [Status.isOk_iff] at hok
    exact Checked.Ensures.of_ok rfl ⟨h, fun hs => absurd hs hok⟩

/-- The index entries in the end: the last block gets its separator, a short successor of its last
key. -/
def Layout.finalIndex (l : Layout) (lastKey : Bytes) : List (Bytes × StoredBlock) :=
  l.indexed ++ l.pending.toList.map fun b => (findShortSuccessor lastKey, b)

theorem Layout.finalIndex_blocks (l : Layout) (lastKey : Bytes) :
    (l.finalIndex lastKey).map Prod.snd = l.blocks := by
  rw [finalIndex, blocks, List.map_append, List.map_map]
  exact congrArg _ (List.map_id _)

theorem finishPending_holds (hS : Tolerates file S) (h : Holds snappy file r l) (hlast : LastKey r l)
    (hcurrent : l.current = []) :
    r.finishPending.Ensures S fun r' => (∀ c : StoredBlock, c.In snappy r → c.In snappy r') ∧
      Holds snappy file r' ⟨l.finalIndex r.lastKey, none, []⟩ ∧
        contents StoredBlock.entries (l.finalIndex r.lastKey) = l.entries := by
  rw [TableBuilder.finishPending, h.pendingFlag]
  cases hpending : l.pending with
  | none =>
    have hfinal : l.finalIndex r.lastKey = l.indexed := by simp [Layout.finalIndex, hpending]
    have hl : l = ⟨l.indexed, none, []⟩ := by
      rw [← hpending, ← hcurrent]
    rw [hfinal]
    refine Checked.Ensures.of_ok rfl ⟨fun c hc => hc, hl ▸ h, ?_⟩
    rw [Layout.entries, Layout.unindexed, hpending, hcurrent]
    simp
  | some b =>
    have hle : ∀ e ∈ b.entries, e.1 ≤ findShortSuccessor r.lastKey := by
      have hentries : l.entries = contents StoredBlock.entries l.indexed ++ b.entries := by
        simp [Layout.entries, Layout.unindexed, hpending, hcurrent]
      intro e he
      have hmem : e ∈ l.entries := by
        rw [hentries]
        exact List.mem_append_right _ he
      obtain ⟨es, x, hes⟩ := (List.eq_nil_or_concat l.entries).resolve_left (List.ne_nil_of_mem hmem)
      have hx : l.entries.getLast? = some x := by
        rw [hes, List.concat_eq_append, List.getLast?_concat]
      rw [hlast x hx]
      exact (h.sorted.le_of_getLast? hx e hmem).trans (le_findShortSuccessor _)
    simp only [Option.isSome_some, if_true]
    have hfinal : l.finalIndex r.lastKey = l.indexed ++ [(findShortSuccessor r.lastKey, b)] := by
      simp [Layout.finalIndex, hpending]
    rw [hfinal]
    exact (addPendingEntry_holds hS h hpending hle).mono fun r' h' => h'.2

/-- The index block. -/
theorem finishIndex_indexed (hS : Tolerates file S) (h : Laid snappy file l r) :
    (r.finishIndex snappy file).Ensures S fun w => w.1.status = .ok →
      r.status = .ok ∧ Logged file w.1 ∧ (∀ c : StoredBlock, c.In snappy r → c.In snappy w.1) ∧
      ∃ index, Indexed snappy w.1 l.entries (l.finalIndex r.lastKey) index ∧ w.2 = index.handle ∧
        w.1.encoded.getLast? = some index.raw := by
  rw [TableBuilder.finishIndex]
  split_ifs with hok
  · rw [Status.isOk_iff] at hok
    obtain ⟨hholds, hlast, hcurrent⟩ := h hok
    refine (finishPending_holds hS hholds hlast hcurrent).bind fun r₁ h₁ => ?_
    obtain ⟨hkeep, hholds₁, hentries⟩ := h₁
    obtain ⟨rs, points, hbuilds, hrs⟩ := hholds₁.index
    obtain ⟨⟨stored, type⟩, hpacked⟩ : ∃ p,
      compressBlock snappy r₁.options.compression r₁.indexBlock.finish.buffer = p := ⟨_, rfl⟩
    obtain ⟨r₂, hwrite, hwrote, hencoded⟩ :=
      TableBuilder.writeBlock_wrote snappy hholds₁.toLogged hholds₁.ok r₁.indexBlock hpacked
    rw [hwrite, Checked.ok_bind]
    refine Checked.Ensures.of_ok rfl fun hok₂ => ?_
    -- what was in the file stays there
    have hkeep₂ : ∀ c : StoredBlock, c.In snappy r₁ →
        c.In snappy { r₂ with indexBlock := r₁.indexBlock.finish.reset } := by
      intro c hc
      have hgrow : r₁.encoded ⊆ r₂.encoded := by
        rw [hencoded]
        exact List.subset_append_left _ _
      exact (hc.of_wrote hwrote hok₂ hgrow).mono rfl (List.Subset.refl _) List.prefix_rfl
    refine ⟨hok, hwrote.logged.of_eq rfl rfl rfl, fun c hc => hkeep₂ c (hkeep c hc),
      ⟨r₁.appends.bytes.length, stored, type, rs, points⟩, ⟨hentries, hholds₁.separated,
        hholds.sorted, fun b hb => hkeep₂ _ (hholds₁.stored b.2 ?_), ?_, ?_, hrs⟩, ?_, ?_⟩
    · exact List.mem_append_left _ (List.mem_map_of_mem hb)
    · have hordered := hholds₁.ordered
      rw [Layout.blocks, Option.toList_none, List.append_nil] at hordered
      exact hordered
    · exact (StoredBlock.In.new hbuilds hpacked hwrote hok₂ hencoded).mono rfl (List.Subset.refl _)
        List.prefix_rfl
    · rw [hholds₁.offset hholds₁.ok, StoredBlock.handle]
    · change r₂.encoded.getLast? = _
      rw [hencoded, List.getLast?_concat, finish_buffer hbuilds, StoredBlock.raw]
  · rw [Status.isOk_iff] at hok
    exact Checked.Ensures.of_ok rfl fun hs => absurd hs hok

/-- The footer. -/
theorem finishFooter_finished (hS : Tolerates file S) {es : List Entry} {c : Contents}
    (hlog : Logged file r) (hok : r.status = .ok) (h : Indexed snappy r es c.indexed c.index)
    (hmeta : c.metaindex.In snappy r) :
    (r.finishFooter file c.metaindex.handle c.index.handle).Ensures S fun r' =>
      r'.encoded = r.encoded ∧ (r'.status = .ok → Logged file r' ∧ Finished snappy r' es c) := by
  rw [TableBuilder.finishFooter, if_pos ((Status.isOk_iff _).mpr hok)]
  have hfooter : (Footer.encodeTo ⟨c.metaindex.handle, c.index.handle⟩ []).Ensures S
      (· = Footer.encoding ⟨c.metaindex.handle, c.index.handle⟩) :=
    Footer.encodeTo_ensures _ (handle_isSet hS hmeta hlog hok)
      (handle_isSet hS h.indexStored hlog hok)
  refine hfooter.bind fun data hdata => Checked.Ensures.of_ok rfl
    ⟨TableBuilder.appendFooter_encoded file r data, fun hok' => ?_⟩
  have hwrote := TableBuilder.appendFooter_wrote hlog hok data
  have hkeep : ∀ b : StoredBlock, b.In snappy r →
      b.In snappy (r.appendFooter file data) := by
    intro b hb
    refine hb.of_wrote hwrote hok' ?_
    rw [TableBuilder.appendFooter_encoded]
    exact List.Subset.refl _
  refine ⟨hwrote.logged, h.of_in hkeep, hkeep _ hmeta, r.appends.bytes, ?_⟩
  rw [← hdata]
  exact hwrote.bytes hok'

/-- Where the other two blocks come: the metaindex block behind the data blocks, the index block last. -/
structure Placed (r : TableBuilder) (c : Contents) : Prop where
  metaindex : ∀ b ∈ c.indexed,
    b.2.position + b.2.stored.length + kBlockTrailerSize ≤ c.metaindex.position
  index : r.encoded.getLast? = some c.index.raw

/-- **`Finish`** leaves a finished file, unless an append fails. -/
theorem finish_finished (hS : Tolerates file S) {es : List Entry} (h : Ready snappy file es r) :
    (r.finish snappy file).Ensures S fun r' =>
      r'.status = .ok → Logged file r' ∧ ∃ c, Finished snappy r' es c ∧ Placed r' c := by
  rw [TableBuilder.finish]
  refine (flush_flushed h).bind fun r₁ h₁ => ?_
  rw [check_of h₁.1, Checked.ok_bind]
  obtain ⟨l, hlaid, hentries⟩ := h₁.2.close.laid
  refine (finishMetaindex_laid hlaid).bind fun w₂ h₂ => ?_
  obtain ⟨r₂, metaindexHandle⟩ := w₂
  refine (finishIndex_indexed hS h₂.1).bind fun w₃ h₃ => ?_
  obtain ⟨r₃, indexHandle⟩ := w₃
  by_cases hok : r₃.status = .ok
  · obtain ⟨hok₂, hlog, hkeep, index, hindexed, rfl, hencoded⟩ := h₃ hok
    obtain ⟨hok₁, m, hm, rfl, hbehind⟩ := h₂.2 hok₂
    rw [hentries hok₁] at hindexed
    refine (finishFooter_finished (c := ⟨l.finalIndex r₂.lastKey, m, index⟩) hS hlog hok hindexed
      (hkeep m hm)).mono fun r' h' hok' => ⟨(h'.2 hok').1, _, (h'.2 hok').2, fun b hb => ?_, ?_⟩
    · apply hbehind
      rw [← l.finalIndex_blocks r₂.lastKey]
      exact List.mem_map_of_mem hb
    · rw [h'.1]
      exact hencoded
  · have hfailed : ¬ r₃.status.isOk = true := fun hs => hok ((Status.isOk_iff _).mp hs)
    dsimp only
    rw [TableBuilder.finishFooter, if_neg hfailed]
    exact Checked.Ensures.of_ok rfl fun hs => absurd hs hok

/-! ### Whole runs -/

/-- No call follows `Finish` or `Abandon`. -/
def ClosesLast : List Call → Prop
  | [] => True
  | c :: calls => (c.closes = true → calls = []) ∧ ClosesLast calls

/-- Calls used as required: `Add` and `Flush`, then perhaps a closing call. -/
theorem closesLast_split {calls : List Call} (h : ClosesLast calls) :
    (∀ c ∈ calls, c.closes = false) ∨
      ∃ before c, calls = before ++ [c] ∧ (∀ c ∈ before, c.closes = false) ∧ c.closes = true := by
  induction calls with
  | nil => exact .inl (by simp)
  | cons c calls ih =>
    obtain ⟨hc, hrest⟩ := h
    cases hcloses : c.closes with
    | true =>
      rw [hc hcloses]
      exact .inr ⟨[], c, rfl, by simp, hcloses⟩
    | false =>
      rcases ih hrest with hall | ⟨before, c', rfl, hbefore, hc'⟩
      · refine .inl ?_
        simp only [List.mem_cons, forall_eq_or_imp]
        exact ⟨hcloses, hall⟩
      · refine .inr ⟨c :: before, c', rfl, ?_, hc'⟩
        simp only [List.mem_cons, forall_eq_or_imp]
        exact ⟨hcloses, hbefore⟩

/-- The closing call fails no assertion. -/
theorem close_ready (hS : Tolerates file S) {es : List Entry} (h : Ready snappy file es r) {c : Call}
    (hc : c.closes = true) : (builderStep snappy file r c).Ensures S fun _ => True := by
  cases c with
  | add key value => exact absurd hc (by simp [Call.closes])
  | flush => exact absurd hc (by decide)
  | finish => exact (finish_finished hS h).bind fun r' _ => Checked.Ensures.of_ok rfl trivial
  | abandon =>
    rw [builderStep, TableBuilder.perform, TableBuilder.abandon, check_of h.isOpen]
    exact Checked.Ensures.of_ok rfl trivial

/-- **No assertion fires** in a run with increasing keys in which nothing follows the closing call. -/
theorem run_checked (hS : Tolerates file S) (h : Ready snappy file [] r) {calls : List Call}
    (hcalls : ClosesLast calls) (hsorted : Sorted (added calls)) :
    Checked.Ensures S (run (builderStep snappy file) r calls) fun _ => True := by
  rcases closesLast_split hcalls with hall | ⟨before, c, rfl, hbefore, hc⟩
  · exact (run_ready hS h hall hsorted).mono fun _ _ => trivial
  · have hsorted' : Sorted (added before) := by
      rw [added, List.flatMap_append] at hsorted
      exact (sorted_append_iff.mp hsorted).1
    have hrun := run_ready hS h hbefore (by simpa using hsorted')
    rw [run_append]
    cases hres : run (builderStep snappy file) r before with
    | error e =>
      rw [hres] at hrun
      exact hrun
    | ok w =>
      rw [hres] at hrun
      have hclose := close_ready hS hrun hc
      simp only [run]
      cases hstep : builderStep snappy file w.2 c with
      | error e =>
        rw [hstep] at hclose
        exact hclose
      | ok w' => trivial

/-- **Every run of a builder**, whatever appends fail.  In each state reached, no append has failed
and the offset is the number of bytes written, or the last append is the one that failed, nothing
follows it, and the status stays its status.  With increasing keys and no call behind the closing one
no assertion fires but those of `EncodeTo`, and these only when the file outgrows a handle. -/
theorem tableBuilder_safe (snappy : Snappy) (file : WritableFile) {options : Options}
    {r₀ : TableBuilder} (hnew : TableBuilder.new options = .ok r₀) (calls : List Call) :
    (∀ outs r, run (builderStep snappy file) r₀ calls = .ok (outs, r) →
      r.appends.FailsOnce r.status ∧ (∀ s, outs.getLast? = some s → s = r.status) ∧
      (r.status = .ok → r.fileSize = UInt64.ofNat r.appends.bytes.length ∧
        (file.Addressable → r.fileSize.toNat = r.appends.bytes.length) ∧
        (r.pendingIndexEntry = true → r.dataBlock.empty = true)) ∧
      (r.status ≠ .ok → ∀ later outs' r', run (builderStep snappy file) r later = .ok (outs', r') →
        (∀ s ∈ outs', s = r.status) ∧ r'.appends = r.appends ∧ r'.status = r.status)) ∧
    (Sorted (added calls) → ClosesLast calls → ∀ a,
      run (builderStep snappy file) r₀ calls = .error a →
        ¬ file.Addressable ∧ (a = .handleOffsetSet ∨ a = .handleSizeSet)) := by
  refine ⟨fun outs r hrun => ?_, fun hsorted hcalls a hrun => ?_⟩
  · have hnew' : Basic file r₀ := TableBuilder.basic_new hnew
    have hbasic := basic_run hnew' hrun
    refine ⟨hbasic.failsOnce, run_status hrun, fun hok => ⟨hbasic.offset hok, fun hfile => ?_,
      hbasic.pending hok⟩, fun hfailed later outs' r' hlater => failed_run hfailed hlater⟩
    have hlt := hbasic.addressable hfile hok
    rw [TableBuilder.fileSize, hbasic.offset hok, UInt64.toNat_ofNat', Nat.mod_eq_of_lt (by omega)]
  · have hready : Ready snappy file [] r₀ := (new_ready hnew).1
    have hends : ∀ S, Tolerates file S → S a := by
      intro S hS
      have hchecked := run_checked hS hready hcalls hsorted
      rwa [hrun] at hchecked
    refine ⟨fun hfile => hends (fun _ => False) (.inl hfile), ?_⟩
    exact hends (fun a => a = .handleOffsetSet ∨ a = .handleSizeSet) (.inr ⟨.inl rfl, .inr rfl⟩)

/-- A builder that is used once more after `Finish`. -/
theorem tableBuilder_used_after_finish :
    Sorted (added [.finish, .flush]) ∧
      buildTable {} Snappy.identity ⟨fun _ _ => .ok⟩ [.finish, .flush] = .error .flushClosed :=
  ⟨List.Pairwise.nil, rfl⟩

/-- One entry, and a file that refuses the second append. -/
theorem tableBuilder_safe_small :
    let file : WritableFile :=
      ⟨fun appends _ => if appends.length = 1 then Errors.dataLoss "disk full" else .ok⟩
    ∃ r₀, TableBuilder.new {} = .ok r₀ ∧
      ∀ outs r, run (builderStep Snappy.identity file) r₀ [.add [1] [2], .finish] = .ok (outs, r) →
        r.appends.FailsOnce r.status := by
  intro file
  obtain ⟨r₀, hnew⟩ : ∃ r₀, TableBuilder.new {} = .ok r₀ := ⟨_, rfl⟩
  exact ⟨r₀, hnew, fun outs r hrun =>
    ((tableBuilder_safe Snappy.identity file hnew [.add [1] [2], .finish]).1 outs r hrun).1⟩

end LearnNetlib.Table
