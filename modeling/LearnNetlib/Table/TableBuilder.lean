import LearnNetlib.Foundations.Runs
import LearnNetlib.Table.BlockBuilder
import LearnNetlib.Table.Format

/-!
# `TableBuilder`

`base/io/table/table_builder.cc`.

* `findShortestSeparator`, `findShortSuccessor` — with what they are for: a key between two keys, a
  key at or above one;
* `TableBuilder` — the fields of `TableBuilder::Rep` and every function over them; `builderStep`
  makes a state machine of `Add`, `Flush`, `Finish` and `Abandon`;
* **`findShortestSeparator_spec`** — the separator really separates, and its assertion never fires.
-/

namespace LearnNetlib.Table

open Runs

/-! ### Separators -/

/-- `FindShortestSeparator(&start, limit)`. -/
def findShortestSeparator (start limit : Bytes) : Checked Bytes :=
  -- Find length of common prefix
  let minLength := min start.length limit.length
  let diffIndex := sharedLength start limit
  if diffIndex ≥ minLength then
    -- Do not shorten if one string is a prefix of the other
    return start
  else
    let diffByte := start.getD diffIndex 0
    if diffByte < 0xff ∧ diffByte.toNat + 1 < (limit.getD diffIndex 0).toNat then do
      let start := start.take diffIndex ++ [diffByte + 1]
      check .separatorBelowLimit (StringPiece.compare start limit < 0)
      return start
    else return start

/-- `FindShortSuccessor(&key)`: the loop goes over a run of 0xffs. -/
def findShortSuccessor : Bytes → Bytes
  | [] => []
  | byte :: key => if byte ≠ 0xff then [byte + 1] else byte :: findShortSuccessor key

theorem add_one_toNat {b : UInt8} (h : b.toNat < 255) : (b + 1).toNat = b.toNat + 1 := by
  rw [UInt8.toNat_add, show (1 : UInt8).toNat = 1 from rfl]
  omega

theorem lt_add_one {b : UInt8} (h : b.toNat < 255) : b < b + 1 := by
  rw [UInt8.lt_iff_toNat_lt, add_one_toNat h]
  omega

/-- Two strings split at the first difference. -/
theorem exists_split_of_sharedLength_lt {as bs : Bytes}
    (h : sharedLength as bs < min as.length bs.length) :
    ∃ p a as' b bs', as = p ++ a :: as' ∧ bs = p ++ b :: bs' ∧ p.length = sharedLength as bs := by
  obtain ⟨ha, hb⟩ := Nat.lt_min.mp h
  refine ⟨as.take (sharedLength as bs), as[sharedLength as bs], as.drop (sharedLength as bs + 1),
    bs[sharedLength as bs], bs.drop (sharedLength as bs + 1), ?_, ?_, ?_⟩
  · rw [List.getElem_cons_drop, List.take_append_drop]
  · rw [take_sharedLength, List.getElem_cons_drop, List.take_append_drop]
  · rw [List.length_take, Nat.min_eq_left ha.le]

/-- **A separator lies between the two keys**, and its assertion never fires. -/
theorem findShortestSeparator_spec {start limit : Bytes} (h : start < limit) :
    ∃ separator, findShortestSeparator start limit = .ok separator ∧ start ≤ separator ∧
      separator < limit := by
  rw [findShortestSeparator]
  dsimp only
  split_ifs with hprefix hbyte
  · exact ⟨start, rfl, le_rfl, h⟩
  · obtain ⟨p, a, as, b, bs, hstart, hlimit, hp⟩ :=
      exists_split_of_sharedLength_lt (Nat.lt_of_not_le hprefix)
    have hdiff : start.getD (sharedLength start limit) 0 = a := by
      rw [← hp, hstart]
      simp
    have hdiff' : limit.getD (sharedLength start limit) 0 = b := by
      rw [← hp, hlimit]
      simp
    have htake : start.take (sharedLength start limit) = p := by
      rw [← hp, hstart, List.take_left]
    rw [hdiff, hdiff', UInt8.lt_iff_toNat_lt] at hbyte
    have ha : a.toNat < 255 := hbyte.1
    have hlt : p ++ [a + 1] < limit := by
      rw [hlimit]
      refine List.append_left_lt (List.cons_lt_cons_iff.mpr (.inl ?_))
      rw [UInt8.lt_iff_toNat_lt, add_one_toNat ha]
      exact hbyte.2
    rw [hdiff, htake, check_of ((StringPiece.compare_lt_zero_iff _ _).mpr hlt)]
    refine ⟨_, rfl, le_of_lt ?_, hlt⟩
    rw [hstart]
    exact List.append_left_lt (List.cons_lt_cons_iff.mpr (.inl (lt_add_one ha)))
  · exact ⟨start, rfl, le_rfl, h⟩

/-- A short successor is at or above the key. -/
theorem le_findShortSuccessor (key : Bytes) : key ≤ findShortSuccessor key := by
  induction key with
  | nil => exact le_rfl
  | cons byte key ih =>
    rw [findShortSuccessor]
    split_ifs with hbyte
    · have hlt : byte.toNat < 255 := by
        have hne : byte.toNat ≠ 255 := fun h => hbyte (UInt8.toNat_inj.mp h)
        have := byte.toNat_lt
        omega
      exact le_of_lt (List.cons_lt_cons_iff.mpr (.inl (lt_add_one hlt)))
    · rcases lt_or_eq_of_le ih with hlt | heq
      · exact le_of_lt (List.cons_lt_cons_iff.mpr (.inr ⟨rfl, hlt⟩))
      · rw [← heq]

/-! ### The builder -/

/-- The fields of `TableBuilder::Rep`, with the calls of `file->Append` for the file.  `encoded` is
not in the source: it keeps the blocks that `WriteBlock` has encoded. -/
structure TableBuilder where
  options : Options
  appends : Appends
  offset : UInt64
  status : Status
  dataBlock : BlockBuilder
  indexBlock : BlockBuilder
  lastKey : Bytes
  numEntries : ℕ
  closed : Bool
  pendingIndexEntry : Bool
  pendingHandle : BlockHandle
  encoded : List Bytes
  deriving Repr, DecidableEq

/-- The type byte and the checksum behind a block. -/
def blockTrailer (blockContents : Bytes) (type : CompressionType) : Bytes :=
  let crc := Crc32c.value 0 blockContents
  let crc := Crc32c.extend 0 crc [type.toByte] -- Extend crc to cover block type
  type.toByte :: encodeFixed32 (Crc32c.mask crc)

/-- The switch of `WriteBlock`: what is stored for the encoded block `raw`. -/
def compressBlock (snappy : Snappy) (compression : CompressionType) (raw : Bytes) :
    Bytes × CompressionType :=
  match compression with
  | .noCompression => (raw, .noCompression)
  | .snappyCompression =>
    let compressed := snappy.compress raw
    if compressed.length < raw.length - raw.length / 8 then (compressed, .snappyCompression)
    else
      -- Snappy not supported, or compressed less than 12.5%, so just
      -- store uncompressed form
      (raw, .noCompression)

namespace TableBuilder

/-- The constructor. -/
def new (options : Options) : Checked TableBuilder := do
  let dataBlock ← BlockBuilder.new options
  let indexBlock ← BlockBuilder.new options
  return {
    options
    appends := []
    offset := 0
    status := .ok
    dataBlock
    indexBlock := { indexBlock with options := { options with blockRestartInterval := 1 } }
    lastKey := []
    numEntries := 0
    closed := false
    pendingIndexEntry := false
    pendingHandle := .unset
    encoded := [] }

variable (snappy : Snappy) (file : WritableFile)

/-- `r->status = r->file->Append(data)`. -/
def append (r : TableBuilder) (data : Bytes) : TableBuilder :=
  let s := file.append r.appends data
  { r with appends := r.appends ++ [(data, s)], status := s }

/-- `WriteRawBlock`. -/
def writeRawBlock (r : TableBuilder) (blockContents : Bytes) (type : CompressionType) :
    TableBuilder × BlockHandle :=
  let handle : BlockHandle := ⟨r.offset, UInt64.ofNat blockContents.length⟩
  let r := r.append file blockContents
  if r.status.isOk then
    let r := r.append file (blockTrailer blockContents type)
    if r.status.isOk then
      ({ r with offset := r.offset + UInt64.ofNat (blockContents.length + kBlockTrailerSize) },
        handle)
    else (r, handle)
  else (r, handle)

/-- `WriteBlock`: the builder, the block builder and the handle afterwards. -/
def writeBlock (r : TableBuilder) (block : BlockBuilder) :
    Checked (TableBuilder × BlockBuilder × BlockHandle) := do
  check .writeBlockOk (r.status.isOk = true)
  let block := block.finish
  let raw := block.buffer
  let (blockContents, type) := compressBlock snappy r.options.compression raw
  let (r, handle) := r.writeRawBlock file blockContents type
  return ({ r with encoded := r.encoded ++ [raw] }, block.reset, handle)

/-- `Flush`. -/
def flush (r : TableBuilder) : Checked TableBuilder := do
  check .flushClosed (r.closed = false)
  if ¬ r.status.isOk then return r
  else if r.dataBlock.empty then return r
  else do
    check .flushPending (r.pendingIndexEntry = false)
    let (r, dataBlock, pendingHandle) ← r.writeBlock snappy file r.dataBlock
    let r := { r with dataBlock, pendingHandle }
    return if r.status.isOk then { r with pendingIndexEntry := true } else r

/-- `Add` and `Finish` add the pending handle to the index under `last_key`. -/
def addPendingEntry (r : TableBuilder) : Checked TableBuilder := do
  let handleEncoding ← r.pendingHandle.encodeTo []
  let indexBlock ← r.indexBlock.add r.lastKey handleEncoding
  return { r with indexBlock, pendingIndexEntry := false }

/-- `Add`, up to the point where the block may have been cut: see if this key+value would make our
current block overly large.  If so, emit the current block before adding this key/value. -/
def addCut (r : TableBuilder) (key value : Bytes) : Checked TableBuilder :=
  if r.numEntries > 0 then do
    check .addOrder (StringPiece.compare key r.lastKey > 0)
    let kOverlyLargeBlockRatio : UInt64 := 2
    if (kOverlyLargeBlockRatio * r.options.blockSize).toNat ≤ key.length + value.length then
      r.flush snappy file
    else return r
  else return r

/-- `Add`, the index entry of the block before. -/
def addIndex (r : TableBuilder) (key : Bytes) : Checked TableBuilder :=
  if r.pendingIndexEntry then do
    check .addDataBlockEmpty (r.dataBlock.empty = true)
    let lastKey ← findShortestSeparator r.lastKey key
    addPendingEntry { r with lastKey }
  else return r

/-- `Add`, the entry itself. -/
def addEntry (r : TableBuilder) (key value : Bytes) : Checked TableBuilder := do
  let dataBlock ← r.dataBlock.add key value
  let r := { r with lastKey := key, numEntries := r.numEntries + 1, dataBlock }
  if r.options.blockSize.toNat ≤ r.dataBlock.currentSizeEstimate then r.flush snappy file
  else return r

/-- `Add`. -/
def add (r : TableBuilder) (key value : Bytes) : Checked TableBuilder := do
  check .addClosed (r.closed = false)
  if ¬ r.status.isOk then return r
  else do
    let r ← r.addCut snappy file key value
    let r ← r.addIndex key
    r.addEntry snappy file key value

/-- `Finish`, the metaindex block. -/
def finishMetaindex (r : TableBuilder) : Checked (TableBuilder × BlockHandle) :=
  if r.status.isOk then do
    let metaIndexBlock ← BlockBuilder.new r.options
    let (r, _, handle) ← r.writeBlock snappy file metaIndexBlock
    return (r, handle)
  else return (r, .unset)

/-- `Finish`, the index entry of the last block. -/
def finishPending (r : TableBuilder) : Checked TableBuilder :=
  if r.pendingIndexEntry then
    addPendingEntry { r with lastKey := findShortSuccessor r.lastKey }
  else return r

/-- `Finish`, the index block. -/
def finishIndex (r : TableBuilder) : Checked (TableBuilder × BlockHandle) :=
  if r.status.isOk then do
    let r ← r.finishPending
    let (r, indexBlock, handle) ← r.writeBlock snappy file r.indexBlock
    return ({ r with indexBlock }, handle)
  else return (r, .unset)

/-- `Finish`, the append of the footer: the offset follows when it succeeds. -/
def appendFooter (r : TableBuilder) (footerEncoding : Bytes) : TableBuilder :=
  let r := r.append file footerEncoding
  if r.status.isOk then { r with offset := r.offset + UInt64.ofNat footerEncoding.length } else r

/-- `Finish`, the footer. -/
def finishFooter (r : TableBuilder) (metaindexHandle indexHandle : BlockHandle) :
    Checked TableBuilder :=
  if r.status.isOk then do
    let footerEncoding ← Footer.encodeTo ⟨metaindexHandle, indexHandle⟩ []
    return r.appendFooter file footerEncoding
  else return r

/-- `Finish`. -/
def finish (r : TableBuilder) : Checked TableBuilder := do
  let r ← r.flush snappy file
  check .finishClosed (r.closed = false)
  let r := { r with closed := true }
  let (r, metaindexHandle) ← r.finishMetaindex snappy file
  let (r, indexHandle) ← r.finishIndex snappy file
  r.finishFooter file metaindexHandle indexHandle

/-- `Abandon`. -/
def abandon (r : TableBuilder) : Checked TableBuilder := do
  check .abandonClosed (r.closed = false)
  return { r with closed := true }

/-- `FileSize`. -/
def fileSize (r : TableBuilder) : UInt64 := r.offset

end TableBuilder

/-! ### The state machine -/

inductive Call
  | add (key value : Bytes)
  | flush
  | finish
  | abandon
  deriving Repr, DecidableEq

/-- One call. -/
def TableBuilder.perform (snappy : Snappy) (file : WritableFile) (r : TableBuilder) :
    Call → Checked TableBuilder
  | .add key value => r.add snappy file key value
  | .flush => r.flush snappy file
  | .finish => r.finish snappy file
  | .abandon => r.abandon

/-- One call, and `status()` afterwards, which is also what `Finish` returns. -/
def builderStep (snappy : Snappy) (file : WritableFile) (r : TableBuilder) (c : Call) :
    Checked (Status × TableBuilder) := do
  let r ← r.perform snappy file c
  return (r.status, r)

/-- The calls on a new builder. -/
def buildTable (options : Options) (snappy : Snappy) (file : WritableFile) (calls : List Call) :
    Checked (List Status × TableBuilder) := do
  let r ← TableBuilder.new options
  run (builderStep snappy file) r calls

end LearnNetlib.Table
