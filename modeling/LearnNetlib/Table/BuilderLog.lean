import LearnNetlib.Table.Checksum

/-!
# What a `TableBuilder` writes, and when it stops writing

* `Logged` — no call of `Append` has failed, or the last one is the first that did and its status is
  `status()`; while none has, the offset is the number of bytes written;
* `Wrote` — the effect of a function that only appends: `writeBlock_wrote`;
* `Basic` — `Logged`, and a pending index entry only over an empty data block;
* **`basic_run`** — `Basic` in every reachable state, whatever was called and whatever failed;
* **`failed_run`** — a failed builder writes nothing more and keeps its status.
-/

namespace LearnNetlib.Table

open Runs

/-! ### The log of `Append` -/

structure Logged (file : WritableFile) (r : TableBuilder) : Prop where
  failsOnce : r.appends.FailsOnce r.status
  offset : r.status = .ok → r.offset = UInt64.ofNat r.appends.bytes.length
  addressable : file.Addressable → r.status = .ok → r.appends.bytes.length < 2 ^ 64 - 1

theorem Logged.of_eq {file : WritableFile} {r r' : TableBuilder} (h : Logged file r) (happends : r'.appends = r.appends)
    (hoffset : r'.offset = r.offset) (hstatus : r'.status = r.status) : Logged file r' := by
  refine ⟨?_, ?_, ?_⟩
  · rw [happends, hstatus]
    exact h.failsOnce
  · rw [happends, hoffset, hstatus]
    exact h.offset
  · rw [happends, hstatus]
    exact h.addressable

/-- From `r` to `r'` only appends happened: `bs`, unless one failed. -/
structure Wrote (file : WritableFile) (bs : Bytes) (r r' : TableBuilder) : Prop where
  frame : r' = { r with
    appends := r'.appends, offset := r'.offset, status := r'.status, encoded := r'.encoded }
  logged : Logged file r'
  bytes : r'.status = .ok → r'.appends.bytes = r.appends.bytes ++ bs

namespace TableBuilder

variable {file : WritableFile} {r : TableBuilder}

/-- One append after none has failed. -/
theorem append_failsOnce (h : Logged file r) (hok : r.status = .ok) (data : Bytes) :
    (r.append file data).appends.FailsOnce (r.append file data).status := by
  have hlog := h.failsOnce
  rw [hok] at hlog
  exact hlog.snoc data _

theorem append_addressable (hfile : file.Addressable) {data : Bytes}
    (hok : (r.append file data).status = .ok) :
    (r.append file data).appends.bytes.length < 2 ^ 64 - 1 := by
  have hlt := hfile r.appends data hok
  rw [append, Appends.bytes_snoc, List.length_append]
  exact hlt

/-- `WriteRawBlock` appends twice, and the offset follows only when both succeed. -/
theorem writeRawBlock_wrote (h : Logged file r) (hok : r.status = .ok) (blockContents : Bytes)
    (type : CompressionType) :
    Wrote file (sealed blockContents type.toByte) r
      (r.writeRawBlock file blockContents type).1 := by
  refine ⟨?_, ?_, fun hok' => writeRawBlock_bytes file r blockContents type hok'⟩
  · rw [writeRawBlock]
    dsimp only
    split_ifs <;> rfl
  · have hfirst := append_failsOnce h hok blockContents
    have hbytes := writeRawBlock_bytes file r blockContents type
    rw [writeRawBlock] at hbytes ⊢
    dsimp only at hbytes ⊢
    split_ifs at hbytes ⊢ with h1 h2
    · -- both succeeded
      rw [Status.isOk_iff] at h1 h2
      rw [h1] at hfirst
      refine ⟨hfirst.snoc _ _, fun _ => ?_, fun hfile _ => append_addressable hfile h2⟩
      have hlen := congrArg List.length (hbytes h2)
      rw [List.length_append, sealed_length] at hlen
      rw [hlen]
      change r.offset + _ = _
      rw [h.offset hok, kBlockTrailerSize, ← UInt64.ofNat_add]
    · -- the trailer failed
      rw [Status.isOk_iff] at h1 h2
      rw [h1] at hfirst
      exact ⟨hfirst.snoc _ _, fun hs => absurd hs h2, fun _ hs => absurd hs h2⟩
    · -- the contents failed
      rw [Status.isOk_iff] at h1
      exact ⟨hfirst, fun hs => absurd hs h1, fun _ hs => absurd hs h1⟩

theorem writeRawBlock_encoded (file : WritableFile) (r : TableBuilder) (blockContents : Bytes)
    (type : CompressionType) :
    (r.writeRawBlock file blockContents type).1.encoded = r.encoded := by
  rw [writeRawBlock]
  dsimp only
  split_ifs <;> rfl

/-- **`WriteBlock`**: the block sealed, as the compressor left it. -/
theorem writeBlock_wrote (snappy : Snappy) (h : Logged file r) (hok : r.status = .ok)
    (block : BlockBuilder) {stored : Bytes} {type : CompressionType}
    (hstored : compressBlock snappy r.options.compression block.finish.buffer = (stored, type)) :
    ∃ r', r.writeBlock snappy file block
        = .ok (r', block.finish.reset, ⟨r.offset, UInt64.ofNat stored.length⟩) ∧
      Wrote file (sealed stored type.toByte) r r' ∧
      r'.encoded = r.encoded ++ [block.finish.buffer] := by
  have hwrote := writeRawBlock_wrote h hok stored type
  have hframe := hwrote.frame
  have hencoded := writeRawBlock_encoded file r stored type
  refine ⟨{ (r.writeRawBlock file stored type).1 with
      encoded := (r.writeRawBlock file stored type).1.encoded ++ [block.finish.buffer] }, ?_,
    ⟨?_, ⟨hwrote.logged.failsOnce, hwrote.logged.offset, hwrote.logged.addressable⟩,
      hwrote.bytes⟩, ?_⟩
  · rw [writeBlock, check_of (by rw [hok]; rfl)]
    simp only [Checked.ok_bind, hstored, writeRawBlock_handle, Checked.pure_eq]
  · rw [hframe]
  · rw [hencoded]

end TableBuilder

/-! ### `Basic` -/

/-- What holds of a builder however it is used. -/
structure Basic (file : WritableFile) (r : TableBuilder) : Prop extends Logged file r where
  pending : r.status = .ok → r.pendingIndexEntry = true → r.dataBlock.empty = true

/-- Appending is all that happened. -/
theorem Wrote.basic {file : WritableFile} {bs : Bytes} {r r' : TableBuilder} (hwrote : Wrote file bs r r')
    (h : Basic file r) (hok : r.status = .ok) : Basic file r' := by
  refine ⟨hwrote.logged, fun _ hp => ?_⟩
  rw [hwrote.frame] at hp ⊢
  exact h.pending hok hp

/-- Any assertion may fail. -/
def anyAssertion (_ : Assertion) : Prop := True

theorem ensures_any {α : Type} (x : Checked α) : x.Ensures anyAssertion fun _ => True := by
  cases x <;> trivial

namespace TableBuilder

variable {snappy : Snappy} {file : WritableFile} {r : TableBuilder}

/-- **What `Flush` can do** on an open builder. -/
theorem flush_cases (snappy : Snappy) (h : Logged file r) (hopen : r.closed = false) :
    ((r.status ≠ .ok ∨ r.dataBlock.empty = true) ∧ r.flush snappy file = .ok r) ∨
    (r.pendingIndexEntry = true ∧ r.dataBlock.empty = false ∧ r.status = .ok ∧
      r.flush snappy file = .error .flushPending) ∨
    ∃ r' stored type, r.status = .ok ∧ r.dataBlock.empty = false ∧ r.pendingIndexEntry = false ∧
      compressBlock snappy r.options.compression r.dataBlock.finish.buffer = (stored, type) ∧
      Wrote file (sealed stored type.toByte) r r' ∧
      r'.encoded = r.encoded ++ [r.dataBlock.finish.buffer] ∧
      r.flush snappy file = .ok { r' with
        dataBlock := r.dataBlock.finish.reset
        pendingHandle := ⟨r.offset, UInt64.ofNat stored.length⟩
        pendingIndexEntry := r'.status.isOk } := by
  rw [flush, check_of hopen, Checked.ok_bind]
  split_ifs with hok hempty
  · exact .inl ⟨.inr hempty, rfl⟩
  · rw [Bool.not_eq_true] at hempty
    rw [Status.isOk_iff] at hok
    cases hpending : r.pendingIndexEntry with
    | true => exact .inr (.inl ⟨rfl, hempty, hok, rfl⟩)
    | false =>
      obtain ⟨⟨stored, type⟩, hstored⟩ : ∃ p,
        compressBlock snappy r.options.compression r.dataBlock.finish.buffer = p := ⟨_, rfl⟩
      obtain ⟨r', hwrite, hwrote, hencoded⟩ := writeBlock_wrote snappy h hok r.dataBlock hstored
      have hframe := congrArg TableBuilder.pendingIndexEntry hwrote.frame
      refine .inr (.inr ⟨r', stored, type, hok, hempty, rfl, hstored, hwrote, hencoded, ?_⟩)
      rw [check_of rfl, Checked.ok_bind, hwrite, Checked.ok_bind]
      dsimp only
      rw [Checked.pure_eq]
      split_ifs with hok'
      · rw [hok']
      · rw [Bool.not_eq_true] at hok'
        rw [hok', ← hpending, ← hframe]
  · exact .inl ⟨.inl fun hs => hok (by rw [hs]; rfl), rfl⟩

theorem basic_new {options : Options} {r : TableBuilder} (h : new options = .ok r) :
    Basic file r := by
  rw [new] at h
  cases hblock : BlockBuilder.new options with
  | error e => simp [hblock] at h
  | ok block =>
    simp only [hblock, Checked.ok_bind, Checked.pure_eq, Except.ok.injEq] at h
    subst h
    exact ⟨⟨.inl ⟨rfl, by simp⟩, fun _ => rfl, fun _ _ => by simp [Appends.bytes]⟩,
      fun _ hp => by simp at hp⟩

theorem basic_flush (h : Basic file r) : (r.flush snappy file).Ensures anyAssertion (Basic file) := by
  by_cases hopen : r.closed = false
  · rcases flush_cases snappy h.toLogged hopen with ⟨-, hflush⟩ | ⟨-, -, -, hflush⟩ |
      ⟨r', stored, type, -, -, -, -, hwrote, -, hflush⟩
    · exact Checked.Ensures.of_ok hflush h
    · rw [hflush]
      trivial
    · exact Checked.Ensures.of_ok hflush ⟨hwrote.logged.of_eq rfl rfl rfl, fun _ _ => rfl⟩
  · rw [flush, check, if_neg hopen]
    trivial

/-- The index entry leaves the file and the data block alone. -/
theorem basic_addPendingEntry (h : Basic file r) :
    r.addPendingEntry.Ensures anyAssertion fun r' =>
      Basic file r' ∧ r'.pendingIndexEntry = false ∧ r'.status = r.status := by
  rw [addPendingEntry]
  refine (ensures_any _).bind fun handleEncoding _ => ?_
  refine (ensures_any _).bind fun indexBlock _ => ?_
  exact Checked.Ensures.of_ok rfl
    ⟨⟨h.toLogged.of_eq rfl rfl rfl, fun _ hp => by simp at hp⟩, rfl, rfl⟩

theorem basic_addCut (h : Basic file r) (key value : Bytes) :
    (r.addCut snappy file key value).Ensures anyAssertion (Basic file) := by
  rw [addCut]
  split_ifs
  · refine Checked.Ensures.check_bind (.inr trivial) fun _ => ?_
    dsimp only
    split_ifs
    · exact basic_flush h
    · exact Checked.Ensures.of_ok rfl h
  · exact Checked.Ensures.of_ok rfl h

theorem basic_addIndex (h : Basic file r) (key : Bytes) :
    (r.addIndex key).Ensures anyAssertion fun r' =>
      Basic file r' ∧ r'.pendingIndexEntry = false := by
  rw [addIndex]
  split_ifs with hpending
  · refine Checked.Ensures.check_bind (.inr trivial) fun _ => ?_
    refine (ensures_any _).bind fun lastKey _ => ?_
    have hbasic : Basic file { r with lastKey } := ⟨h.toLogged.of_eq rfl rfl rfl, h.pending⟩
    exact (basic_addPendingEntry hbasic).mono fun r' h' => ⟨h'.1, h'.2.1⟩
  · exact Checked.Ensures.of_ok rfl ⟨h, by simpa using hpending⟩

theorem basic_addEntry (h : Basic file r) (hpending : r.pendingIndexEntry = false)
    (key value : Bytes) : (r.addEntry snappy file key value).Ensures anyAssertion (Basic file) := by
  rw [addEntry]
  refine (ensures_any _).bind fun dataBlock _ => ?_
  have hbasic : Basic file { r with lastKey := key, numEntries := r.numEntries + 1, dataBlock } :=
    ⟨h.toLogged.of_eq rfl rfl rfl, fun _ hp => by simp [hpending] at hp⟩
  dsimp only
  split_ifs
  · exact basic_flush hbasic
  · exact Checked.Ensures.of_ok rfl hbasic

theorem basic_add (h : Basic file r) (key value : Bytes) :
    (r.add snappy file key value).Ensures anyAssertion (Basic file) := by
  rw [add]
  refine Checked.Ensures.check_bind (.inr trivial) fun _ => ?_
  split_ifs
  · exact (basic_addCut h key value).bind fun r₁ h₁ =>
      (basic_addIndex h₁ key).bind fun r₂ h₂ => basic_addEntry h₂.1 h₂.2 key value
  · exact Checked.Ensures.of_ok rfl h

theorem basic_writeBlock (h : Basic file r) (hok : r.status = .ok) (block : BlockBuilder) :
    (r.writeBlock snappy file block).Ensures anyAssertion fun w => Basic file w.1 := by
  obtain ⟨r', hwrite, hwrote, -⟩ := writeBlock_wrote snappy h.toLogged hok block rfl
  exact Checked.Ensures.of_ok hwrite (hwrote.basic h hok)

theorem basic_finishMetaindex (h : Basic file r) :
    (r.finishMetaindex snappy file).Ensures anyAssertion fun w => Basic file w.1 := by
  rw [finishMetaindex]
  split_ifs with hok
  · rw [Status.isOk_iff] at hok
    refine (ensures_any _).bind fun metaIndexBlock _ => ?_
    exact (basic_writeBlock h hok metaIndexBlock).bind fun w hw => Checked.Ensures.of_ok rfl hw
  · exact Checked.Ensures.of_ok rfl h

theorem basic_finishPending (h : Basic file r) :
    r.finishPending.Ensures anyAssertion fun r' => Basic file r' ∧ r'.status = r.status := by
  rw [finishPending]
  split_ifs
  · have hbasic : Basic file { r with lastKey := findShortSuccessor r.lastKey } :=
      ⟨h.toLogged.of_eq rfl rfl rfl, h.pending⟩
    exact (basic_addPendingEntry hbasic).mono fun r' h' => ⟨h'.1, h'.2.2⟩
  · exact Checked.Ensures.of_ok rfl ⟨h, rfl⟩

theorem basic_finishIndex (h : Basic file r) :
    (r.finishIndex snappy file).Ensures anyAssertion fun w => Basic file w.1 := by
  rw [finishIndex]
  split_ifs with hok
  · rw [Status.isOk_iff] at hok
    refine (basic_finishPending h).bind fun r₁ h₁ => ?_
    refine (basic_writeBlock h₁.1 (h₁.2.trans hok) r₁.indexBlock).bind fun w hw => ?_
    exact Checked.Ensures.of_ok rfl ⟨hw.toLogged.of_eq rfl rfl rfl, hw.pending⟩
  · exact Checked.Ensures.of_ok rfl h

/-- **The footer** is one append. -/
theorem appendFooter_wrote (h : Logged file r) (hok : r.status = .ok) (data : Bytes) :
    Wrote file data r (r.appendFooter file data) := by
  have hlog := append_failsOnce h hok data
  rw [appendFooter]
  split_ifs with hok'
  · rw [Status.isOk_iff] at hok'
    refine ⟨rfl, ⟨hlog, fun _ => ?_, fun hfile _ => append_addressable hfile hok'⟩, fun _ => ?_⟩
    · change r.offset + _ = _
      rw [append, Appends.bytes_snoc, List.length_append, h.offset hok, ← UInt64.ofNat_add]
    · rw [append, Appends.bytes_snoc]
  · rw [Status.isOk_iff] at hok'
    exact ⟨rfl, ⟨hlog, fun hs => absurd hs hok', fun _ hs => absurd hs hok'⟩,
      fun hs => absurd hs hok'⟩

theorem appendFooter_encoded (file : WritableFile) (r : TableBuilder) (data : Bytes) :
    (r.appendFooter file data).encoded = r.encoded := by
  rw [appendFooter]
  split_ifs <;> rfl

theorem basic_finishFooter (h : Basic file r) (metaindexHandle indexHandle : BlockHandle) :
    (r.finishFooter file metaindexHandle indexHandle).Ensures anyAssertion (Basic file) := by
  rw [finishFooter]
  split_ifs with hok
  · rw [Status.isOk_iff] at hok
    refine (ensures_any _).bind fun footerEncoding _ => ?_
    exact Checked.Ensures.of_ok rfl ((appendFooter_wrote h.toLogged hok footerEncoding).basic h hok)
  · exact Checked.Ensures.of_ok rfl h

theorem basic_finish (h : Basic file r) :
    (r.finish snappy file).Ensures anyAssertion (Basic file) := by
  rw [finish]
  refine (basic_flush h).bind fun r₁ h₁ => ?_
  refine Checked.Ensures.check_bind (.inr trivial) fun _ => ?_
  have hclosed : Basic file { r₁ with closed := true } :=
    ⟨h₁.toLogged.of_eq rfl rfl rfl, h₁.pending⟩
  refine (basic_finishMetaindex hclosed).bind fun w₂ h₂ => ?_
  refine (basic_finishIndex h₂).bind fun w₃ h₃ => ?_
  exact basic_finishFooter h₃ _ _

variable (snappy file) in
/-- Every call keeps `Basic`. -/
theorem basic_step (h : Basic file r) (c : Call) :
    (builderStep snappy file r c).Ensures anyAssertion fun w => Basic file w.2 ∧ w.1 = w.2.status := by
  have hcall : ∀ x : Checked TableBuilder, x.Ensures anyAssertion (Basic file) →
      (x >>= fun r' => pure (r'.status, r')).Ensures anyAssertion fun w =>
        Basic file w.2 ∧ w.1 = w.2.status :=
    fun x hx => hx.bind fun r' h' => Checked.Ensures.of_ok rfl ⟨h', rfl⟩
  cases c with
  | add key value => exact hcall _ (basic_add h key value)
  | flush => exact hcall _ (basic_flush h)
  | finish => exact hcall _ (basic_finish h)
  | abandon =>
    refine hcall _ ?_
    refine Checked.Ensures.check_bind (.inr trivial) fun _ => ?_
    exact Checked.Ensures.of_ok rfl ⟨h.toLogged.of_eq rfl rfl rfl, h.pending⟩

end TableBuilder

/-- **Whatever is called and whatever fails.** -/
theorem basic_run {snappy : Snappy} {file : WritableFile} {r r' : TableBuilder} (h : Basic file r)
    {calls : List Call} {outs : List Status}
    (hrun : run (builderStep snappy file) r calls = .ok (outs, r')) : Basic file r' := by
  have hkeeps : ∀ r c o r', Basic file r → builderStep snappy file r c = .ok (o, r') →
      Basic file r' := by
    intro r c o r' h hstep
    have hends := TableBuilder.basic_step snappy file h c
    rw [hstep] at hends
    exact hends.1
  exact run_invariant hkeeps h hrun

theorem builderStep_status {snappy : Snappy} {file : WritableFile} {r r' : TableBuilder} {c : Call}
    {s : Status} (h : builderStep snappy file r c = .ok (s, r')) : s = r'.status := by
  have hends : (builderStep snappy file r c).Ensures anyAssertion fun w => w.1 = w.2.status :=
    (ensures_any _).bind fun r' _ => Checked.Ensures.of_ok rfl rfl
  rw [h] at hends
  exact hends

/-- The last status seen, and so the one that `Finish` returns, is that of the builder. -/
theorem run_status {snappy : Snappy} {file : WritableFile} {r r' : TableBuilder} {calls : List Call}
    {outs : List Status} (hrun : run (builderStep snappy file) r calls = .ok (outs, r')) :
    ∀ s, outs.getLast? = some s → s = r'.status := by
  induction calls generalizing r outs with
  | nil =>
    simp only [run, Except.ok.injEq, Prod.mk.injEq] at hrun
    obtain ⟨rfl, rfl⟩ := hrun
    simp
  | cons c calls ih =>
    obtain ⟨o, r₁, outs₁, hstep, hrest, rfl⟩ := run_cons_eq_ok hrun
    intro s hs
    cases calls with
    | nil =>
      simp only [run, Except.ok.injEq, Prod.mk.injEq] at hrest
      obtain ⟨rfl, rfl⟩ := hrest
      cases hs
      exact builderStep_status hstep
    | cons c' calls =>
      obtain ⟨o', r₂, outs₂, -, -, rfl⟩ := run_cons_eq_ok hrest
      rw [List.getLast?_cons_cons] at hs
      exact ih hrest s hs

/-! ### After a failure -/

namespace TableBuilder

variable {snappy : Snappy} {file : WritableFile} {r : TableBuilder}

theorem flush_failed (h : r.status ≠ .ok) (hopen : r.closed = false) :
    r.flush snappy file = .ok r := by
  have hok : ¬ r.status.isOk = true := fun hs => h ((Status.isOk_iff _).mp hs)
  rw [flush, check_of hopen, Checked.ok_bind, if_pos hok]
  rfl

theorem add_failed (h : r.status ≠ .ok) (hopen : r.closed = false) (key value : Bytes) :
    r.add snappy file key value = .ok r := by
  have hok : ¬ r.status.isOk = true := fun hs => h ((Status.isOk_iff _).mp hs)
  rw [add, check_of hopen, Checked.ok_bind, if_pos hok]
  rfl

/-- `Finish` only closes a failed builder. -/
theorem finish_failed (h : r.status ≠ .ok) (hopen : r.closed = false) :
    r.finish snappy file = .ok { r with closed := true } := by
  have hok : ¬ r.status.isOk = true := fun hs => h ((Status.isOk_iff _).mp hs)
  rw [finish, flush_failed h hopen, Checked.ok_bind, check_of hopen, Checked.ok_bind]
  simp only [finishMetaindex, finishIndex, finishFooter, if_neg hok, Checked.pure_eq,
    Checked.ok_bind]

variable (snappy file) in
/-- A builder that is closed takes no call. -/
theorem perform_closed (hclosed : r.closed = true) (c : Call) :
    ∃ a, r.perform snappy file c = .error a := by
  have hopen : ¬ r.closed = false := by simp [hclosed]
  cases c with
  | add key value => exact ⟨_, by rw [perform, add, check, if_neg hopen, Checked.error_bind]⟩
  | flush => exact ⟨_, by rw [perform, flush, check, if_neg hopen, Checked.error_bind]⟩
  | finish =>
    exact ⟨_, by rw [perform, finish, flush, check, if_neg hopen, Checked.error_bind, Checked.error_bind]⟩
  | abandon => exact ⟨_, by rw [perform, abandon, check, if_neg hopen, Checked.error_bind]⟩

variable (snappy file) in
/-- No call on a failed builder appends anything or changes its status. -/
theorem failed_step (h : r.status ≠ .ok) (c : Call) :
    (builderStep snappy file r c).Ensures anyAssertion fun w =>
      w.1 = r.status ∧ w.2.appends = r.appends ∧ w.2.status = r.status := by
  by_cases hopen : r.closed = false
  · cases c with
    | add key value =>
      simp only [builderStep, perform, add_failed h hopen, Checked.ok_bind]
      exact Checked.Ensures.of_ok rfl ⟨rfl, rfl, rfl⟩
    | flush =>
      simp only [builderStep, perform, flush_failed h hopen, Checked.ok_bind]
      exact Checked.Ensures.of_ok rfl ⟨rfl, rfl, rfl⟩
    | finish =>
      simp only [builderStep, perform, finish_failed h hopen, Checked.ok_bind]
      exact Checked.Ensures.of_ok rfl ⟨rfl, rfl, rfl⟩
    | abandon =>
      simp only [builderStep, perform, abandon, check_of hopen, Checked.ok_bind]
      exact Checked.Ensures.of_ok rfl ⟨rfl, rfl, rfl⟩
  · obtain ⟨a, hperform⟩ := perform_closed snappy file (by simpa using hopen) c
    rw [builderStep, hperform]
    trivial

end TableBuilder

/-- **After the first failure** nothing more is written, and every call reports that failure. -/
theorem failed_run {snappy : Snappy} {file : WritableFile} {r r' : TableBuilder}
    (h : r.status ≠ .ok) {calls : List Call} {outs : List Status}
    (hrun : run (builderStep snappy file) r calls = .ok (outs, r')) :
    (∀ s ∈ outs, s = r.status) ∧ r'.appends = r.appends ∧ r'.status = r.status := by
  induction calls generalizing r outs with
  | nil =>
    simp only [run, Except.ok.injEq, Prod.mk.injEq] at hrun
    obtain ⟨rfl, rfl⟩ := hrun
    simp
  | cons c calls ih =>
    obtain ⟨o, r₁, outs₁, hstep, hrest, rfl⟩ := run_cons_eq_ok hrun
    have hends := TableBuilder.failed_step snappy file h c
    rw [hstep] at hends
    obtain ⟨ho, happends, hstatus⟩ := hends
    obtain ⟨houts, happends', hstatus'⟩ := ih (by rw [hstatus]; exact h) hrest
    refine ⟨?_, happends'.trans happends, hstatus'.trans hstatus⟩
    intro s hs
    rcases List.mem_cons.mp hs with rfl | hs
    · exact ho
    · rw [houts s hs, hstatus]

end LearnNetlib.Table
