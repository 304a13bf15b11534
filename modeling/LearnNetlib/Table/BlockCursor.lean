import LearnNetlib.Table.BlockBuilder
import LearnNetlib.Table.BlockSafety
import Mathlib.Data.List.Induction

/-!
# Reading a block that was built

The iterator of a block made of records is a cursor over their entries.

* `decodeEntry_record` — `DecodeEntry` finds the lengths of a record, through the fast path or not;
* `OfBlock`, `Before`, `Here` — the iterator belongs to the block; it is about to parse a record; it
  stands on one;
* `parseNextKey_nil` / `parseNextKey_cons`, `searchLoop_spec`, `scanLoop_spec` — one lemma per
  function and loop;
* **`isCursor`** — the iterator of any block shape below `2 ^ 32` bytes is a cursor.
-/

namespace LearnNetlib.Table

open Loops SortedCursor

/-! ### Where things stand in a block -/

theorem flatMap_encodeFixed32_length (vs : List UInt32) :
    (vs.flatMap encodeFixed32).length = 4 * vs.length := by
  induction vs with
  | nil => rfl
  | cons v vs ih =>
    rw [List.flatMap_cons, List.length_append, ih, encodeFixed32_length, List.length_cons]
    omega

section

variable {rs : List Record} {points : List ℕ}

theorem blockBytes_length (rs : List Record) (points : List ℕ) :
    (blockBytes rs points).length = (recordsBytes rs).length + 4 * points.length + 4 := by
  rw [blockBytes, List.length_append, List.length_append, flatMap_encodeFixed32_length,
    encodeFixed32_length, List.length_map]

theorem hasAt_record {pre post : List Record} {r : Record} (h : rs = pre ++ r :: post) :
    (blockBytes rs points).HasAt (recordsBytes pre).length r.bytes := by
  rw [blockBytes, h, recordsBytes_append, recordsBytes_cons]
  simp only [List.append_assoc]
  exact Bytes.HasAt.behind _ _ _

theorem hasAt_point {i : ℕ} (hi : i < points.length) :
    (blockBytes rs points).HasAt ((recordsBytes rs).length + i * 4)
      (encodeFixed32 (UInt32.ofNat points[i])) := by
  have hsplit : points.map UInt32.ofNat
      = (points.take i).map UInt32.ofNat ++ UInt32.ofNat points[i]
        :: (points.drop (i + 1)).map UInt32.ofNat := by
    rw [← List.map_cons, ← List.map_append, List.getElem_cons_drop, List.take_append_drop]
  have hat := Bytes.HasAt.behind
    (recordsBytes rs ++ ((points.take i).map UInt32.ofNat).flatMap encodeFixed32)
    (encodeFixed32 (UInt32.ofNat points[i]))
    (((points.drop (i + 1)).map UInt32.ofNat).flatMap encodeFixed32 ++
      encodeFixed32 (UInt32.ofNat points.length))
  rw [List.length_append, flatMap_encodeFixed32_length, List.length_map, List.length_take,
    Nat.min_eq_left hi.le, Nat.mul_comm] at hat
  rw [blockBytes, hsplit, List.flatMap_append, List.flatMap_cons]
  simpa only [List.append_assoc] using hat

theorem hasAt_count (rs : List Record) (points : List ℕ) :
    (blockBytes rs points).HasAt ((blockBytes rs points).length - 4)
      (encodeFixed32 (UInt32.ofNat points.length)) := by
  have hat := Bytes.HasAt.behind
    (recordsBytes rs ++ (points.map UInt32.ofNat).flatMap encodeFixed32)
    (encodeFixed32 (UInt32.ofNat points.length)) []
  rw [List.append_nil, ← blockBytes, List.length_append, flatMap_encodeFixed32_length,
    List.length_map] at hat
  rwa [blockBytes_length, Nat.add_sub_cancel]

end

/-! ### `DecodeEntry` on a record -/

theorem getVarint32Ptr_small {data : Bytes} {p limit : ℕ} {x : UInt8} (hp : p < limit)
    (hread : readByte data p = .ok x) (hx : x.toNat < 128) :
    getVarint32Ptr data p limit = .ok (some (x.toUInt32, p + 1)) := by
  rw [getVarint32Ptr, if_pos hp, hread, Access.ok_bind, if_pos ((and_128_eq_zero_iff x).mpr hx)]
  rfl

theorem or_or_lt_128 {a b c : UInt8} (h : (a.toUInt32 ||| b.toUInt32 ||| c.toUInt32) < 128) :
    a.toNat < 128 ∧ b.toNat < 128 ∧ c.toNat < 128 := by
  rw [UInt32.lt_iff_toNat_lt, UInt32.toNat_or, UInt32.toNat_or, UInt8.toNat_toUInt32,
    UInt8.toNat_toUInt32, UInt8.toNat_toUInt32] at h
  have h128 : (128 : UInt32).toNat = 128 := rfl
  have h1 := Nat.left_le_or (n := a.toNat) (m := b.toNat)
  have h2 := Nat.right_le_or (n := a.toNat) (m := b.toNat)
  have h3 := Nat.left_le_or (n := a.toNat ||| b.toNat) (m := c.toNat)
  have h4 := Nat.right_le_or (n := a.toNat ||| b.toNat) (m := c.toNat)
  omega

/-- What `DecodeEntry` finds in front of a record at `p`. -/
def Record.decoded (r : Record) (p : ℕ) : DecodedEntry :=
  ⟨p + r.header.length, UInt32.ofNat r.shared, UInt32.ofNat (r.key.length - r.shared),
    UInt32.ofNat r.value.length⟩

/-- **The fast path and the varint path agree.** -/
theorem decodeLengths_record {data : Bytes} {p limit : ℕ} {r : Record} (hat : data.HasAt p r.bytes)
    (hend : p + r.bytes.length ≤ limit) (hlimit : limit ≤ data.length) :
    decodeLengths data p limit = .ok (some (r.decoded p)) := by
  have hlen := r.bytes_length
  have h3 := r.header_length_ge
  have hheader := (Bytes.HasAt.append_iff.mp hat).1
  rw [Record.header] at hheader
  obtain ⟨h12, hat3⟩ := Bytes.HasAt.append_iff.mp hheader
  obtain ⟨hat1, hat2⟩ := Bytes.HasAt.append_iff.mp h12
  have hlength : r.header.length = (encodeVarint32 (UInt32.ofNat r.shared)).length
      + (encodeVarint32 (UInt32.ofNat (r.key.length - r.shared))).length
      + (encodeVarint32 (UInt32.ofNat r.value.length)).length := by
    rw [Record.header, List.length_append, List.length_append]
  rw [List.length_append] at hat3
  rw [← Nat.add_assoc] at hat3
  have hv1 := getVarint32Ptr_encodeVarint32 _ hat1 (show _ ≤ limit by omega)
  have hv2 := getVarint32Ptr_encodeVarint32 _ hat2 (show _ ≤ limit by omega)
  have hv3 := getVarint32Ptr_encodeVarint32 _ hat3 (show _ ≤ limit by omega)
  have hread0 := readByte_of_lt (show p < data.length by omega)
  have hread1 := readByte_of_lt (show p + 1 < data.length by omega)
  have hread2 := readByte_of_lt (show p + 2 < data.length by omega)
  rw [decodeLengths, if_neg (by omega), hread0, hread1, hread2]
  simp only [Access.ok_bind, Access.pure_eq, Record.decoded, hlength]
  split_ifs with hfast
  · -- three bytes below 128 are three complete varints
    obtain ⟨hx0, hx1, hx2⟩ := or_or_lt_128 hfast
    rw [getVarint32Ptr_small (by omega) hread0 hx0] at hv1
    simp only [Except.ok.injEq, Option.some.injEq, Prod.mk.injEq, Nat.add_left_cancel_iff] at hv1
    rw [← hv1.2, getVarint32Ptr_small (by omega) hread1 hx1] at hv2
    simp only [Except.ok.injEq, Option.some.injEq, Prod.mk.injEq, Nat.add_left_cancel_iff] at hv2
    rw [← hv1.2, ← hv2.2, getVarint32Ptr_small (by omega) hread2 hx2] at hv3
    simp only [Except.ok.injEq, Option.some.injEq, Prod.mk.injEq, Nat.add_left_cancel_iff] at hv3
    rw [hv1.1, hv2.1, hv3.1, ← hv1.2, ← hv2.2, ← hv3.2]
  · simp only [hv1, hv2, hv3, Access.ok_bind]
    simp only [Nat.add_assoc]

theorem decodeEntry_record {data : Bytes} {p limit : ℕ} {r : Record} (hat : data.HasAt p r.bytes)
    (hend : p + r.bytes.length ≤ limit) (hlimit : limit ≤ data.length) (h32 : limit < 2 ^ 32) :
    decodeEntry data p limit = .ok (some (r.decoded p)) := by
  refine (decodeEntry_eq_some_iff h32 _).mpr ⟨decodeLengths_record hat hend hlimit, ?_⟩
  have hlen := r.bytes_length
  simp only [Record.decoded, UInt32.toNat_ofNat']
  omega

/-! ### The iterator of a block -/

section

variable {rs : List Record} {points : List ℕ}

/-- The iterator belongs to the block of `rs` and `points`, and nothing has gone wrong. -/
structure OfBlock (rs : List Record) (points : List ℕ) (it : Iter) : Prop where
  data : it.data = blockBytes rs points
  restarts : it.restarts = UInt32.ofNat (recordsBytes rs).length
  numRestarts : it.numRestarts = UInt32.ofNat points.length
  status : it.status = .ok
  index_le : it.restartIndex ≤ it.numRestarts

/-- The iterator is about to parse the first record of `post`. -/
structure Before (rs : List Record) (it : Iter) (pre post : List Record) : Prop where
  split : rs = pre ++ post
  value : ∃ p n, it.value = some (p, n) ∧ p + n = (recordsBytes pre).length
  follows : ∀ r post', post = r :: post' → r.Follows it.key

/-- The iterator stands on `r`. -/
structure Here (rs : List Record) (it : Iter) (pre : List Record) (r : Record)
    (post : List Record) : Prop where
  split : rs = pre ++ r :: post
  current : it.current = UInt32.ofNat (recordsBytes pre).length
  key : it.key = r.key
  value : it.value
    = some ((recordsBytes pre).length + r.header.length + (r.key.length - r.shared), r.value.length)

/-- A block shape that fits in 32 bits. -/
structure Fits (rs : List Record) (points : List ℕ) : Prop where
  shape : BlockShape rs points
  lt : (blockBytes rs points).length < 2 ^ 32

variable {it it' : Iter} {pre post : List Record} {r : Record}

/-- A record ends before the restart array. -/
theorem record_end_le (hsplit : rs = pre ++ r :: post) :
    (recordsBytes pre).length + r.bytes.length ≤ (recordsBytes rs).length := by
  rw [hsplit, recordsBytes_append, recordsBytes_cons, List.length_append, List.length_append]
  omega

theorem Before.nextEntryOffset (hbefore : Before rs it pre post) :
    it.nextEntryOffset = .ok (UInt32.ofNat (recordsBytes pre).length) := by
  obtain ⟨p, n, hvalue, hpn⟩ := hbefore.value
  rw [Iter.nextEntryOffset, hvalue]
  exact congrArg (fun k => Except.ok (UInt32.ofNat k)) hpn

/-- Where the iterator stands, as a cursor. -/
def BlockAt (rs : List Record) (points : List ℕ) (it : Iter) (rest : List Entry) : Prop :=
  OfBlock rs points it ∧ ((it.valid = false ∧ rest = []) ∨
    ∃ pre r post, Here rs it pre r post ∧ rest = (r :: post).map Record.entry)

/-- How far the iterator has come. -/
def progress (it : Iter) : ℕ := it.data.length - it.value.elim 0 fun v => v.1 + v.2

theorem progress_before (hit : OfBlock rs points it) (hbefore : Before rs it pre post) :
    progress it = (blockBytes rs points).length - (recordsBytes pre).length := by
  obtain ⟨p, n, hvalue, hpn⟩ := hbefore.value
  rw [progress, hvalue, hit.data, ← hpn]
  rfl

/-- At the end there is nothing to parse. -/
theorem parseNextKey_nil (hit : OfBlock rs points it) (hbefore : Before rs it pre []) (fuel : ℕ) :
    ∃ it', it.parseNextKey fuel = .ok (false, it') ∧ OfBlock rs points it' ∧ it'.valid = false := by
  have hend : it.restarts ≤ UInt32.ofNat (recordsBytes pre).length := by
    have hsplit := hbefore.split
    rw [List.append_nil] at hsplit
    rw [hit.restarts, hsplit]
    exact UInt32.le_refl _
  refine ⟨{ it with current := it.restarts, restartIndex := it.numRestarts }, ?_,
    ⟨hit.data, hit.restarts, hit.numRestarts, hit.status, UInt32.le_refl _⟩, ?_⟩
  · rw [Iter.parseNextKey, hbefore.nextEntryOffset, Access.ok_bind, if_pos hend]
    rfl
  · simp [Iter.valid]

/-- A prefix of the records is known by its length in bytes. -/
theorem prefix_unique {pre pre' post post' : List Record} (h : pre ++ post = pre' ++ post')
    (hlen : (recordsBytes pre).length = (recordsBytes pre').length) : pre = pre' := by
  rcases List.append_eq_append_iff.mp h with ⟨c, rfl, -⟩ | ⟨c, rfl, -⟩
  · rw [recordsBytes_append, List.length_append] at hlen
    rw [recordsBytes_eq_nil (List.length_eq_zero_iff.mp (show (recordsBytes c).length = 0 by omega)),
      List.append_nil]
  · rw [recordsBytes_append, List.length_append] at hlen
    rw [recordsBytes_eq_nil (List.length_eq_zero_iff.mp (show (recordsBytes c).length = 0 by omega)),
      List.append_nil]

/-- A key is no longer than the bytes of its record and of those before it. -/
theorem BlockShape.key_length_le (h : BlockShape rs points) (hsplit : rs = pre ++ r :: post) :
    r.key.length ≤ (recordsBytes pre).length + r.bytes.length := by
  induction pre using List.reverseRecOn generalizing r post with
  | nil =>
    have hle := (h.follows [] r post hsplit).le_prev
    have hlen := r.bytes_length
    rw [lastKeyOf_nil, List.length_nil] at hle
    omega
  | append_singleton pre r' ih =>
    have hle := (h.follows _ r post hsplit).le_prev
    have hlen := r.bytes_length
    have hprev := ih (show rs = pre ++ r' :: r :: post by rw [hsplit]; simp)
    rw [lastKeyOf_snoc] at hle
    rw [recordsBytes_length_snoc]
    omega

namespace Fits

variable (h : Fits rs points)
include h

theorem points_pos : 0 < points.length := by
  have hhead := h.shape.head
  cases points with
  | nil => simp at hhead
  | cons p ps => simp

theorem records_lt : (recordsBytes rs).length < 2 ^ 32 := by
  have := h.lt
  rw [blockBytes_length] at this
  omega

theorem restarts_toNat (hit : OfBlock rs points it) :
    it.restarts.toNat = (recordsBytes rs).length := by
  rw [hit.restarts, UInt32.toNat_ofNat', Nat.mod_eq_of_lt h.records_lt]

theorem numRestarts_toNat (hit : OfBlock rs points it) :
    it.numRestarts.toNat = points.length := by
  have := h.lt
  rw [blockBytes_length] at this
  rw [hit.numRestarts, UInt32.toNat_ofNat', Nat.mod_eq_of_lt (by omega)]

theorem geometry (hit : OfBlock rs points it) : it.Geometry := by
  refine ⟨?_, ?_⟩
  · rw [h.numRestarts_toNat hit]
    exact h.points_pos
  · rw [h.numRestarts_toNat hit, h.restarts_toNat hit, hit.data, blockBytes_length]
    omega

theorem getRestartPoint_eq (hit : OfBlock rs points it) {index : UInt32}
    (hindex : index.toNat < points.length) :
    it.getRestartPoint index = .ok (UInt32.ofNat points[index.toNat]) := by
  rw [Iter.getRestartPoint, if_pos]
  · rw [h.restarts_toNat hit, hit.data]
    exact decodeFixed32_putFixed32 (hasAt_point hindex)
  · rw [UInt32.lt_iff_toNat_lt, h.numRestarts_toNat hit]
    exact hindex

/-- A restart point is the offset of a record that shares nothing, or zero in an empty block. -/
theorem point_split {p : ℕ} (hp : p ∈ points) :
    ∃ pre post, rs = pre ++ post ∧ (recordsBytes pre).length = p ∧
      ∀ r post', post = r :: post' → r.shared = 0 := by
  rcases eq_or_ne rs [] with rfl | hne
  · rw [h.shape.single rfl, List.mem_singleton] at hp
    exact ⟨[], [], rfl, by rw [hp]; rfl, by simp⟩
  · obtain ⟨pre, r, post, hsplit, hshared, hlen⟩ := h.shape.restart hne p hp
    refine ⟨pre, r :: post, hsplit, hlen, ?_⟩
    intro r' post' heq
    rw [← (List.cons.inj heq).1]
    exact hshared

theorem point_toNat {p : ℕ} (hp : p ∈ points) : (UInt32.ofNat p).toNat = p := by
  obtain ⟨pre, post, hsplit, rfl, -⟩ := h.point_split hp
  have hlt := h.records_lt
  rw [hsplit, recordsBytes_append, List.length_append] at hlt
  rw [UInt32.toNat_ofNat', Nat.mod_eq_of_lt (by omega)]

/-! ### `ParseNextKey` -/

theorem here_valid (hit : OfBlock rs points it) (hhere : Here rs it pre r post) :
    it.valid = true := by
  have hle := record_end_le hhere.split
  have hlt := h.records_lt
  have h3 := r.header_length_ge
  have hlen := r.bytes_length
  rw [Iter.valid, decide_eq_true_eq, UInt32.lt_iff_toNat_lt, h.restarts_toNat hit, hhere.current,
    UInt32.toNat_ofNat', Nat.mod_eq_of_lt (by omega)]
  omega

/-- Behind one record stands the next. -/
theorem here_before (hhere : Here rs it pre r post) : Before rs it (pre ++ [r]) post := by
  refine ⟨by rw [hhere.split]; simp, ⟨_, _, hhere.value, ?_⟩, ?_⟩
  · rw [recordsBytes_length_snoc, r.bytes_length]
    omega
  · rintro r' post' rfl
    have hfollows := h.shape.follows (pre ++ [r]) r' post' (by rw [hhere.split]; simp)
    rwa [lastKeyOf_snoc, ← hhere.key] at hfollows

theorem offset_toNat (hbefore : Before rs it pre post) :
    (UInt32.ofNat (recordsBytes pre).length).toNat = (recordsBytes pre).length := by
  have hlt := h.records_lt
  rw [hbefore.split, recordsBytes_append, List.length_append] at hlt
  rw [UInt32.toNat_ofNat', Nat.mod_eq_of_lt (by omega)]

/-- The loop over `restart_index_` ends. -/
theorem restartLoop_total (hit : OfBlock rs points it) {fuel : ℕ} (hfuel : points.length < fuel) :
    ∃ index, loop .stillRunning it.restartTurn fuel it.restartIndex = .ok index ∧
      index ≤ it.numRestarts := by
  have hnum := h.numRestarts_toNat hit
  refine loop_total (fun index => index ≤ it.numRestarts) (fun index => index ≤ it.numRestarts)
    (fun index => points.length - index.toNat) ?_ hit.index_le (by omega)
  intro index hindex
  rw [Iter.restartTurn]
  split_ifs with hlt
  · obtain ⟨point, hpoint⟩ := (h.geometry hit).getRestartPoint hlt
    rw [hpoint, Access.ok_bind]
    split_ifs
    · refine .inl ⟨index + 1, rfl, UInt32.le_of_lt hlt, ?_⟩
      rw [UInt32.le_iff_toNat_le] at hindex
      rw [UInt32.lt_iff_toNat_lt, UInt32.toNat_add, show (1 : UInt32).toNat = 1 from rfl] at hlt
      have hsmall := h.lt
      rw [blockBytes_length] at hsmall
      rw [UInt32.toNat_add, show (1 : UInt32).toNat = 1 from rfl]
      omega
    · exact .inr ⟨index, rfl, hindex⟩
  · exact .inr ⟨index, rfl, hindex⟩

/-- **`ParseNextKey` moves onto the next record.** -/
theorem parseNextKey_cons (hit : OfBlock rs points it) (hbefore : Before rs it pre (r :: post))
    {fuel : ℕ} (hfuel : points.length < fuel) :
    ∃ it', it.parseNextKey fuel = .ok (true, it') ∧ OfBlock rs points it' ∧
      Here rs it' pre r post := by
  have hsplit := hbefore.split
  have hle := record_end_le hsplit
  have hlt := h.records_lt
  have hlen := r.bytes_length
  have h3 := r.header_length_ge
  have hoffset := h.offset_toNat hbefore
  have hrestarts := h.restarts_toNat hit
  have hfollows := hbefore.follows r post rfl
  have hblock := blockBytes_length rs points
  have hat : it.data.HasAt (recordsBytes pre).length r.bytes := by
    rw [hit.data]
    exact hasAt_record hsplit
  have hin : (recordsBytes rs).length ≤ it.data.length := by
    rw [hit.data, hblock]
    omega
  have hkey : r.shared ≤ it.key.length := hfollows.le_prev
  have hnonShared : (UInt32.ofNat (r.key.length - r.shared)).toNat = r.key.length - r.shared := by
    rw [UInt32.toNat_ofNat', Nat.mod_eq_of_lt (by omega)]
  have hvalueLength : (UInt32.ofNat r.value.length).toNat = r.value.length := by
    rw [UInt32.toNat_ofNat', Nat.mod_eq_of_lt (by omega)]
  have hshared : (UInt32.ofNat r.shared).toNat = r.shared := by
    have hkeylen := h.shape.key_length_le hsplit
    have hle' := hfollows.le_key
    rw [UInt32.toNat_ofNat', Nat.mod_eq_of_lt (by omega)]
  have hdecode := decodeEntry_record hat hle hin h.records_lt
  have hdelta : readBytes it.data ((recordsBytes pre).length + r.header.length)
      (r.key.length - r.shared) = .ok (r.key.drop r.shared) := by
    have hbody := (Bytes.HasAt.append_iff.mp hat).2
    have hdrop := (Bytes.HasAt.append_iff.mp hbody).1.readBytes (by omega)
    rwa [List.length_drop] at hdrop
  have hkeyeq : it.key.take r.shared ++ r.key.drop r.shared = r.key := by
    rw [hfollows.take_eq, List.take_append_drop]
  -- the iterator as it is when the loop over `restart_index_` starts
  have hit' : OfBlock rs points { it with
      current := UInt32.ofNat (recordsBytes pre).length
      key := r.key
      value := some ((recordsBytes pre).length + r.header.length + (r.key.length - r.shared),
        r.value.length) } :=
    ⟨hit.data, hit.restarts, hit.numRestarts, hit.status, hit.index_le⟩
  obtain ⟨index, hloop, hindex⟩ := h.restartLoop_total hit' hfuel
  refine ⟨{ it with
      current := UInt32.ofNat (recordsBytes pre).length
      key := r.key
      value := some ((recordsBytes pre).length + r.header.length + (r.key.length - r.shared),
        r.value.length)
      restartIndex := index }, ?_,
    ⟨hit.data, hit.restarts, hit.numRestarts, hit.status, hindex⟩, ⟨hsplit, rfl, rfl, rfl⟩⟩
  rw [Iter.parseNextKey, hbefore.nextEntryOffset, Access.ok_bind, if_neg]
  · simp only [hoffset, hrestarts, hdecode, Access.ok_bind, Record.decoded, hshared, hnonShared,
      hvalueLength, Nat.not_lt.mpr hfollows.le_prev, if_false, hdelta, hkeyeq, hloop,
      Access.pure_eq]
  · rw [UInt32.le_iff_toNat_le, hoffset, hrestarts]
    omega

/-! ### `Seek` and `SeekToFirst` -/

/-- From a restart point the records behind it can be parsed. -/
theorem seekToRestartPoint_before (hit : OfBlock rs points it) {index : UInt32}
    (hindex : index.toNat < points.length) :
    ∃ it' pre post, it.seekToRestartPoint index = .ok it' ∧ OfBlock rs points it' ∧
      Before rs it' pre post ∧ points[index.toNat]? = some (recordsBytes pre).length := by
  obtain ⟨pre, post, hsplit, hlen, hshared⟩ := h.point_split (List.getElem_mem hindex)
  have hpoint := h.point_toNat (List.getElem_mem hindex)
  refine ⟨{ it with
      key := []
      restartIndex := index
      value := some (points[index.toNat], 0) }, pre, post, ?_,
    ⟨hit.data, hit.restarts, hit.numRestarts, hit.status, ?_⟩, ⟨hsplit, ⟨_, _, rfl, ?_⟩, ?_⟩,
    by rw [List.getElem?_eq_getElem hindex, hlen]⟩
  · rw [Iter.seekToRestartPoint, h.getRestartPoint_eq hit hindex, Access.ok_bind, hpoint]
    rfl
  · rw [UInt32.le_iff_toNat_le, h.numRestarts_toNat hit]
    exact hindex.le
  · exact hlen.symm
  · intro r post' heq
    have h0 := hshared r post' heq
    exact ⟨by rw [h0]; exact Nat.zero_le _, by rw [h0]; exact Nat.zero_le _, by rw [h0]; rfl⟩

/-- Zero, or the index of a restart point whose key is below the target. -/
def BelowTarget (rs : List Record) (points : List ℕ) (target : Bytes) (index : UInt32) : Prop :=
  index.toNat < points.length ∧ (index = 0 ∨ ∃ pre r post, rs = pre ++ r :: post ∧
    points[index.toNat]? = some (recordsBytes pre).length ∧ r.key < target)

/-- A turn of the binary search that goes on. -/
theorem searchTurn_spec (hit : OfBlock rs points it) (target : Bytes) (s : UInt32 × UInt32)
    (hbelow : BelowTarget rs points target s.1) (hright : s.2.toNat < points.length)
    (hlt : s.1 < s.2) :
    ∃ s', it.searchTurn target s = .ok (.inl s') ∧ BelowTarget rs points target s'.1 ∧
      s'.2.toNat < points.length ∧ s'.2.toNat - s'.1.toNat < s.2.toNat - s.1.toNat := by
  have hsmall := h.lt
  rw [blockBytes_length] at hsmall
  have hlt' := UInt32.lt_iff_toNat_lt.mp hlt
  have hmid := Iter.mid_toNat s.1 s.2
  rw [Nat.mod_eq_of_lt (by omega)] at hmid
  have hmidlt : ((s.1 + s.2 + 1) / 2).toNat < points.length := by omega
  -- a second restart point means that there are records
  have hne : rs ≠ [] := by
    intro hrs
    rw [h.shape.single hrs] at hright
    simp at hright
    omega
  obtain ⟨pre, r, post, hsplit, hshared, hlen⟩ :=
    h.shape.restart hne _ (List.getElem_mem hmidlt)
  have hle := record_end_le hsplit
  have hblock := blockBytes_length rs points
  have hbytes := r.bytes_length
  have hin : (recordsBytes rs).length ≤ it.data.length := by
    rw [hit.data, hblock]
    omega
  have hat : it.data.HasAt (recordsBytes pre).length r.bytes := by
    rw [hit.data]
    exact hasAt_record hsplit
  have hdecode := decodeEntry_record hat hle hin h.records_lt
  have hpoint : (UInt32.ofNat points[((s.1 + s.2 + 1) / 2).toNat]).toNat
      = (recordsBytes pre).length := by
    rw [h.point_toNat (List.getElem_mem hmidlt), hlen]
  have hkey : readBytes it.data ((recordsBytes pre).length + r.header.length) r.key.length
      = .ok r.key := by
    have hbody := (Bytes.HasAt.append_iff.mp hat).2
    have hdrop := (Bytes.HasAt.append_iff.mp hbody).1
    rw [hshared, List.drop_zero] at hdrop
    exact hdrop.readBytes (by omega)
  have hkeylen : (UInt32.ofNat r.key.length).toNat = r.key.length := by
    rw [UInt32.toNat_ofNat', Nat.mod_eq_of_lt (by omega)]
  have hturn : it.searchTurn target s
      = .ok (.inl (if StringPiece.compare r.key target < 0 then ((s.1 + s.2 + 1) / 2, s.2)
          else (s.1, (s.1 + s.2 + 1) / 2 - 1))) := by
    rw [Iter.searchTurn, if_pos hlt]
    simp only [h.getRestartPoint_eq hit hmidlt, hpoint, h.restarts_toNat hit, hdecode,
      Access.ok_bind, Record.decoded, hshared, Nat.sub_zero, hkeylen, hkey, Access.pure_eq,
      show UInt32.ofNat 0 = 0 from rfl, ne_eq, not_true_eq_false, if_false]
    split_ifs <;> rfl
  rw [hturn]
  refine ⟨_, rfl, ?_⟩
  split_ifs with hcmp
  · refine ⟨⟨hmidlt, .inr ⟨pre, r, post, hsplit, ?_, ?_⟩⟩, hright, ?_⟩
    · rw [List.getElem?_eq_getElem hmidlt, hlen]
    · exact (StringPiece.compare_lt_zero_iff _ _).mp hcmp
    · dsimp only
      omega
  · have hsub : ((s.1 + s.2 + 1) / 2 - 1).toNat = ((s.1 + s.2 + 1) / 2).toNat - 1 := by
      rw [Iter.sub_one_toNat]
      omega
    refine ⟨hbelow, ?_, ?_⟩
    · dsimp only
      omega
    · dsimp only
      omega

/-- **The binary search** leaves with a restart point below the target, or the first. -/
theorem searchLoop_spec (hit : OfBlock rs points it) (target : Bytes) {fuel : ℕ}
    (hfuel : points.length < fuel) :
    ∃ left, loop .stillRunning (it.searchTurn target) fuel (0, it.numRestarts - 1)
        = .ok (some left) ∧ BelowTarget rs points target left := by
  have hpos := h.points_pos
  have hnum := h.numRestarts_toNat hit
  have hlast : (it.numRestarts - 1).toNat = points.length - 1 := by
    have := it.numRestarts.toNat_lt
    rw [Iter.sub_one_toNat]
    omega
  have hturn : ∀ s : UInt32 × UInt32,
      BelowTarget rs points target s.1 ∧ s.2.toNat < points.length →
      (∃ s', it.searchTurn target s = .ok (.inl s') ∧
        (BelowTarget rs points target s'.1 ∧ s'.2.toNat < points.length) ∧
        s'.2.toNat - s'.1.toNat < s.2.toNat - s.1.toNat) ∨
      ∃ o, it.searchTurn target s = .ok (.inr o) ∧
        ∃ left, o = some left ∧ BelowTarget rs points target left := by
    rintro s ⟨hbelow, hright⟩
    by_cases hlt : s.1 < s.2
    · obtain ⟨s', hgo, hbelow', hright', hdec⟩ := h.searchTurn_spec hit target s hbelow hright hlt
      exact .inl ⟨s', hgo, ⟨hbelow', hright'⟩, hdec⟩
    · exact .inr ⟨some s.1, by rw [Iter.searchTurn, if_neg hlt], s.1, rfl, hbelow⟩
  have hloop : ∃ o, loop Stop.stillRunning (it.searchTurn target) fuel (0, it.numRestarts - 1)
      = .ok o ∧ ∃ left, o = some left ∧ BelowTarget rs points target left :=
    loop_total _ _ (fun s => s.2.toNat - s.1.toNat) hturn
      ⟨⟨hpos, .inl rfl⟩, by dsimp only; omega⟩ (by dsimp only; omega)
  obtain ⟨o, hloop, left, rfl, hleft⟩ := hloop
  exact ⟨left, hloop, hleft⟩

/-- **The linear search** stops at the first record not below the target. -/
theorem scanLoop_spec (target : Bytes) {fuel : ℕ}
    (hfuel : (blockBytes rs points).length < fuel) (hit : OfBlock rs points it)
    (hbefore : Before rs it pre post) :
    ∃ it', loop .stillRunning (Iter.scanTurn fuel target) fuel it = .ok it' ∧
      BlockAt rs points it' (seekTo target (post.map Record.entry)) := by
  have hblock := blockBytes_length rs points
  have hpoints : points.length < fuel := by omega
  have hgoal : ∃ it', loop Stop.stillRunning (Iter.scanTurn fuel target) fuel it = .ok it' ∧
      BlockAt rs points it' (seekTo target (post.map Record.entry)) := by
    refine loop_total (fun it => OfBlock rs points it ∧ ∃ pre post', Before rs it pre post' ∧
        seekTo target (post'.map Record.entry) = seekTo target (post.map Record.entry))
      (fun it => BlockAt rs points it (seekTo target (post.map Record.entry))) progress ?_
      ⟨hit, pre, post, hbefore, rfl⟩ ?_
    · rintro it ⟨hit, pre, post', hbefore, hrest⟩
      rw [← hrest, Iter.scanTurn]
      cases post' with
      | nil =>
        obtain ⟨it', hparse, hit', hvalid⟩ := parseNextKey_nil hit hbefore fuel
        refine .inr ⟨it', by rw [hparse]; rfl, hit', .inl ⟨hvalid, rfl⟩⟩
      | cons r post' =>
        obtain ⟨it', hparse, hit', hhere⟩ := h.parseNextKey_cons hit hbefore hpoints
        rw [hparse, Access.ok_bind]
        dsimp only
        rw [if_neg (by simp), hhere.key, List.map_cons]
        rcases lt_or_ge r.key target with hlt | hge
        · -- the record is passed over
          have hbefore' := h.here_before hhere
          have hlt' := (StringPiece.compare_lt_zero_iff _ _).mpr hlt
          refine .inl ⟨it', by rw [if_neg (by omega)]; rfl, ⟨hit', _, post', hbefore', ?_⟩, ?_⟩
          · rw [seekTo_cons_of_lt (show r.entry.1 < target from hlt)]
          · have hle := record_end_le hhere.split
            have h3 := r.header_length_ge
            have hlen := r.bytes_length
            rw [progress_before hit hbefore, progress_before hit' hbefore',
              recordsBytes_length_snoc]
            omega
        · -- the search ends here
          have hge' := (StringPiece.compare_nonneg_iff _ _).mpr hge
          refine .inr ⟨it', by rw [if_pos hge']; rfl, hit', .inr ⟨pre, r, post', hhere, ?_⟩⟩
          rw [seekTo_cons_of_le (show target ≤ r.entry.1 from hge), List.map_cons]
    · rw [progress_before hit hbefore]
      omega
  exact hgoal

/-- The records before the restart point that the search found are below the target. -/
theorem before_lt_target {target : Bytes} {left : UInt32}
    (hleft : BelowTarget rs points target left) (hsplit : rs = pre ++ post)
    (hlen : points[left.toNat]? = some (recordsBytes pre).length) :
    ∀ e ∈ pre.map Record.entry, e.1 < target := by
  rcases hleft.2 with rfl | ⟨pre', r, post', hsplit', hlen', hkey⟩
  · have hhead := h.shape.head
    rw [List.head?_eq_getElem?] at hhead
    rw [show (0 : UInt32).toNat = 0 from rfl, hhead, Option.some.injEq] at hlen
    rw [recordsBytes_eq_nil (List.length_eq_zero_iff.mp hlen.symm)]
    simp
  · rw [hlen, Option.some.injEq] at hlen'
    obtain rfl := prefix_unique (hsplit.symm.trans hsplit') hlen'
    have hsorted := h.shape.sorted
    rw [hsplit', List.map_append, sorted_append_iff] at hsorted
    intro e he
    exact (hsorted.2.2 e he r.entry (by simp)).trans hkey

/-- **`Seek` finds the first entry not below the target.** -/
theorem seek_spec (hit : OfBlock rs points it) (target : Bytes) {fuel : ℕ}
    (hfuel : (blockBytes rs points).length < fuel) :
    ∃ it', it.seek fuel target = .ok it' ∧
      BlockAt rs points it' (seekTo target (rs.map Record.entry)) := by
  have hblock := blockBytes_length rs points
  obtain ⟨left, hsearch, hleft⟩ := h.searchLoop_spec hit target (show points.length < fuel by omega)
  obtain ⟨it₁, pre, post, hseek, hit₁, hbefore, hlen⟩ :=
    h.seekToRestartPoint_before hit hleft.1
  have hlt := h.before_lt_target hleft hbefore.split hlen
  obtain ⟨it₂, hscan, hat⟩ := h.scanLoop_spec target hfuel hit₁ hbefore
  refine ⟨it₂, ?_, ?_⟩
  · rw [Iter.seek, hsearch, Access.ok_bind]
    dsimp only
    rw [hseek, Access.ok_bind, hscan]
  · have hsplit := congrArg (List.map Record.entry) hbefore.split
    rwa [hsplit, List.map_append, seekTo_append_of_lt hlt]

/-- Parsing from any position lands on the next record or at the end. -/
theorem parseNextKey_at (hit : OfBlock rs points it) (hbefore : Before rs it pre post) {fuel : ℕ}
    (hfuel : points.length < fuel) :
    ∃ found it', it.parseNextKey fuel = .ok (found, it') ∧
      BlockAt rs points it' (post.map Record.entry) := by
  cases post with
  | nil =>
    obtain ⟨it', hparse, hit', hvalid⟩ := parseNextKey_nil hit hbefore fuel
    exact ⟨false, it', hparse, hit', .inl ⟨hvalid, rfl⟩⟩
  | cons r post =>
    obtain ⟨it', hparse, hit', hhere⟩ := h.parseNextKey_cons hit hbefore hfuel
    exact ⟨true, it', hparse, hit', .inr ⟨pre, r, post, hhere, rfl⟩⟩

theorem seekToFirst_spec (hit : OfBlock rs points it) {fuel : ℕ} (hfuel : points.length < fuel) :
    ∃ it', it.seekToFirst fuel = .ok it' ∧ BlockAt rs points it' (rs.map Record.entry) := by
  obtain ⟨it₁, pre, post, hseek, hit₁, hbefore, hlen⟩ :=
    h.seekToRestartPoint_before hit (show (0 : UInt32).toNat < points.length from h.points_pos)
  have hhead := h.shape.head
  rw [List.head?_eq_getElem?] at hhead
  rw [show (0 : UInt32).toNat = 0 from rfl, hhead, Option.some.injEq] at hlen
  obtain rfl := recordsBytes_eq_nil (List.length_eq_zero_iff.mp hlen.symm)
  obtain ⟨found, it₂, hparse, hat⟩ := h.parseNextKey_at hit₁ hbefore hfuel
  have hsplit : rs = post := hbefore.split
  refine ⟨it₂, ?_, by rw [← hsplit] at hat; exact hat⟩
  rw [Iter.seekToFirst, hseek, Access.ok_bind, hparse]
  rfl

theorem next_spec (hit : OfBlock rs points it) (hhere : Here rs it pre r post) {fuel : ℕ}
    (hfuel : points.length < fuel) :
    ∃ it', it.next fuel = .ok it' ∧ BlockAt rs points it' (post.map Record.entry) := by
  obtain ⟨found, it', hparse, hat⟩ := h.parseNextKey_at hit (h.here_before hhere) hfuel
  refine ⟨it', ?_, hat⟩
  rw [Iter.next, if_pos (h.here_valid hit hhere), hparse]
  rfl

theorem valueBytes_spec (hit : OfBlock rs points it) (hhere : Here rs it pre r post) :
    it.valueBytes = .ok r.value := by
  have hle := record_end_le hhere.split
  have hlen := r.bytes_length
  have hblock := blockBytes_length rs points
  have hat : (blockBytes rs points).HasAt (recordsBytes pre).length r.bytes :=
    hasAt_record hhere.split
  have hvalue := (Bytes.HasAt.append_iff.mp (Bytes.HasAt.append_iff.mp hat).2).2
  rw [List.length_drop] at hvalue
  rw [Iter.valueBytes, if_pos (h.here_valid hit hhere), hhere.value, hit.data]
  exact hvalue.readBytes (by omega)

/-- **The iterator of a block is a cursor over its entries.** -/
theorem isCursor {fuel : ℕ} (hfuel : (blockBytes rs points).length < fuel) :
    IsCursor (BlockIterator.ops fuel) (rs.map Record.entry) .ok
      fun bi rest => ∃ it, bi = .iter it ∧ BlockAt rs points it rest := by
  have hpoints : points.length < fuel := by
    rw [blockBytes_length] at hfuel
    omega
  constructor
  · rintro bi rest ⟨it, rfl, hit, ⟨hvalid, rfl⟩ | ⟨pre, r, post, hhere, rfl⟩⟩
    · change it.valid = true ↔ _
      simp [hvalid]
    · change it.valid = true ↔ _
      simp [h.here_valid hit hhere]
  · rintro bi e rest ⟨it, rfl, hit, ⟨-, hrest⟩ | ⟨pre, r, post, hhere, hrest⟩⟩
    · simp at hrest
    · rw [List.map_cons, List.cons.injEq] at hrest
      obtain ⟨rfl, rfl⟩ := hrest
      exact ⟨hhere.key, h.valueBytes_spec hit hhere⟩
  · rintro bi rest ⟨it, rfl, hit, -⟩
    exact hit.status
  · rintro bi rest ⟨it, rfl, hit, -⟩
    obtain ⟨it', hseek, hat⟩ := h.seekToFirst_spec hit hpoints
    refine ⟨.iter it', ?_, it', rfl, hat⟩
    change BlockIterator.iter <$> it.seekToFirst fuel = _
    rw [hseek]
    rfl
  · rintro bi rest ⟨it, rfl, hit, -⟩ target
    obtain ⟨it', hseek, hat⟩ := h.seek_spec hit target hfuel
    refine ⟨.iter it', ?_, it', rfl, hat⟩
    change BlockIterator.iter <$> it.seek fuel target = _
    rw [hseek]
    rfl
  · rintro bi e rest ⟨it, rfl, hit, ⟨-, hrest⟩ | ⟨pre, r, post, hhere, hrest⟩⟩
    · simp at hrest
    · rw [List.map_cons, List.cons.injEq] at hrest
      obtain ⟨rfl, rfl⟩ := hrest
      obtain ⟨it', hnext, hat⟩ := h.next_spec hit hhere hpoints
      refine ⟨.iter it', ?_, it', rfl, hat⟩
      change BlockIterator.iter <$> it.next fuel = _
      rw [hnext]
      rfl

/-- Opening the bytes of a block. -/
theorem openBlock_eq :
    ∃ it, openBlock (blockBytes rs points) = .ok (.iter it) ∧ BlockAt rs points it [] := by
  have hpos := h.points_pos
  have hlt := h.lt
  have hblock := blockBytes_length rs points
  have hcount : decodeFixed32 (blockBytes rs points) ((blockBytes rs points).length - 4)
      = .ok (UInt32.ofNat points.length) := decodeFixed32_putFixed32 (hasAt_count rs points)
  have hnum : (UInt32.ofNat points.length).toNat = points.length := by
    rw [UInt32.toNat_ofNat', Nat.mod_eq_of_lt (by omega)]
  have hnum1 : (1 + UInt32.ofNat points.length).toNat = points.length + 1 := by
    rw [UInt32.toNat_add, hnum, show (1 : UInt32).toNat = 1 from rfl]
    omega
  have hne : UInt32.ofNat points.length ≠ 0 := by
    intro h0
    rw [h0] at hnum
    rw [← hnum] at hpos
    exact absurd hpos (by decide)
  have hoffset : (blockBytes rs points).length - (points.length + 1) * 4
      = (recordsBytes rs).length := by omega
  have hread : ∀ offset, Block.numRestarts ⟨blockBytes rs points, (blockBytes rs points).length,
      offset⟩ = .ok (UInt32.ofNat points.length) := by
    intro offset
    rw [Block.numRestarts, if_pos (by dsimp only; omega)]
    exact hcount
  refine ⟨Iter.new (blockBytes rs points) (UInt32.ofNat (recordsBytes rs).length)
    (UInt32.ofNat points.length), ?_, ⟨rfl, rfl, rfl, rfl, UInt32.le_refl _⟩,
    .inl ⟨Iter.new_valid _ _ _, rfl⟩⟩
  rw [openBlock, Block.new]
  dsimp only
  rw [if_neg (by omega), hread, Access.ok_bind, if_neg (by rw [hnum]; omega), Access.pure_eq,
    Access.ok_bind, hnum1, hoffset, Block.newIterator, if_neg (by dsimp only; omega), hread,
    Access.ok_bind, if_neg hne]
  rfl

end Fits

end

end LearnNetlib.Table
