import LearnNetlib.Table.TableBuilder

/-!
# The checksum of a stored block

* `writeRawBlock_bytes` — what `WriteRawBlock` puts into the file is the sealed block;
* `ConfinedTo` — two byte strings of one length that agree outside a window;
* `extendBytes_confined_ne` — a window of four bytes is enough for the checksum to differ;
* **`readBlock_corrupted`** — a block changed within four consecutive bytes, or within its checksum,
  is never delivered.
-/

namespace LearnNetlib.Table

open Crc32c (extendBytes mask unmask)

/-! ### What is stored -/

theorem blockTrailer_eq (blockContents : Bytes) (type : CompressionType) :
    blockContents ++ blockTrailer blockContents type = sealed blockContents type.toByte := by
  rw [blockTrailer, sealed, Crc32c.extendBytes_append]
  simp only [Crc32c.value, Crc32c.extend_eq_extendBytes]

/-- The handle is that of the place where the block begins. -/
theorem writeRawBlock_handle (file : WritableFile) (r : TableBuilder) (blockContents : Bytes)
    (type : CompressionType) :
    (r.writeRawBlock file blockContents type).2
      = ⟨r.offset, UInt64.ofNat blockContents.length⟩ := by
  rw [TableBuilder.writeRawBlock]
  dsimp only
  split_ifs <;> rfl

/-- **`WriteRawBlock` stores the sealed block** when nothing fails. -/
theorem writeRawBlock_bytes (file : WritableFile) (r : TableBuilder) (blockContents : Bytes)
    (type : CompressionType) (hok : (r.writeRawBlock file blockContents type).1.status = .ok) :
    (r.writeRawBlock file blockContents type).1.appends.bytes
      = r.appends.bytes ++ sealed blockContents type.toByte := by
  rw [TableBuilder.writeRawBlock] at hok ⊢
  dsimp only at hok ⊢
  split_ifs at hok ⊢ with h1 h2
  · simp only [TableBuilder.append, Appends.bytes_snoc]
    rw [List.append_assoc, blockTrailer_eq]
  · exact absurd ((Status.isOk_iff _).mpr hok) h2
  · exact absurd ((Status.isOk_iff _).mpr hok) h1

/-! ### Corruption -/

/-- `stored'` has the length of `stored` and agrees with it outside `[start, start + len)`. -/
structure ConfinedTo (stored stored' : Bytes) (start len : ℕ) : Prop where
  length : stored'.length = stored.length
  agree : ∀ i, i < start ∨ start + len ≤ i → stored'[i]? = stored[i]?

/-- The window, cut out of both strings. -/
theorem ConfinedTo.split {stored stored' : Bytes} {start len : ℕ}
    (h : ConfinedTo stored stored' start len) (hend : start + len ≤ stored.length) :
    ∃ pre as bs post, stored = pre ++ as ++ post ∧ stored' = pre ++ bs ++ post ∧
      pre.length = start ∧ as.length = len ∧ bs.length = len := by
  have hlen := h.length
  have hpre : stored'.take start = stored.take start := by
    apply List.ext_getElem?
    intro i
    rw [List.getElem?_take, List.getElem?_take]
    split_ifs with hi
    · exact h.agree i (.inl hi)
    · rfl
  have hpost : stored'.drop (start + len) = stored.drop (start + len) := by
    apply List.ext_getElem?
    intro i
    rw [List.getElem?_drop, List.getElem?_drop]
    exact h.agree _ (.inr (Nat.le_add_right _ _))
  have hcut : ∀ l : Bytes, l = l.take start ++ (l.drop start).take len ++ l.drop (start + len) := by
    intro l
    rw [← List.drop_drop, List.append_assoc, List.take_append_drop, List.take_append_drop]
  refine ⟨stored.take start, (stored.drop start).take len, (stored'.drop start).take len,
    stored.drop (start + len), hcut stored, ?_, ?_, ?_, ?_⟩
  · rw [← hpre, ← hpost]
    exact hcut stored'
  · rw [List.length_take]
    omega
  · rw [List.length_take, List.length_drop]
    omega
  · rw [List.length_take, List.length_drop]
    omega

/-- A change within four consecutive bytes changes the checksum. -/
theorem extendBytes_confined_ne {body body' : Bytes} {start len : ℕ}
    (h : ConfinedTo body body' start len) (h4 : len ≤ 4) (hend : start + len ≤ body.length)
    (hne : body' ≠ body) : extendBytes 0 body' ≠ extendBytes 0 body := by
  obtain ⟨pre, as, bs, post, rfl, rfl, -, has, hbs⟩ := h.split hend
  refine (Crc32c.extendBytes_burst_ne 0 pre as bs post (by omega) (by omega) ?_).symm
  rintro rfl
  exact hne rfl

/-- Different checksum bytes spell different checksums. -/
theorem unmask_fixed32_ne {b0 b1 b2 b3 c0 c1 c2 c3 : UInt8}
    (h : [b0, b1, b2, b3] ≠ [c0, c1, c2, c3]) :
    unmask (fixed32 b0 b1 b2 b3) ≠ unmask (fixed32 c0 c1 c2 c3) := by
  intro heq
  have hword := congrArg UInt32.toNat (Crc32c.unmask_injective heq)
  rw [fixed32_toNat, fixed32_toNat] at hword
  have hb0 := b0.toNat_lt
  have hb1 := b1.toNat_lt
  have hb2 := b2.toNat_lt
  have hc0 := c0.toNat_lt
  have hc1 := c1.toNat_lt
  have hc2 := c2.toNat_lt
  have h0 : b0 = c0 := UInt8.toNat_inj.mp (by omega)
  have h1 : b1 = c1 := UInt8.toNat_inj.mp (by omega)
  have h2 : b2 = c2 := UInt8.toNat_inj.mp (by omega)
  have h3 : b3 = c3 := UInt8.toNat_inj.mp (by omega)
  exact h (by rw [h0, h1, h2, h3])

/-- The two kinds of damage: at most four consecutive bytes of the contents and the type, or the
checksum. -/
def Damaged (blockContents stored stored' : Bytes) : Prop :=
  stored' ≠ stored ∧
    ((∃ start len, len ≤ 4 ∧ start + len ≤ blockContents.length + 1 ∧
        ConfinedTo stored stored' start len) ∨
      ConfinedTo stored stored' (blockContents.length + 1) 4)

/-- Neither kind keeps contents and checksum consistent. -/
theorem damaged_mismatch {blockContents stored' body : Bytes} {type type' b0 b1 b2 b3 : UInt8}
    (h : Damaged blockContents (sealed blockContents type) stored')
    (hbody : body.length = blockContents.length)
    (hstored' : stored' = body ++ [type', b0, b1, b2, b3]) :
    extendBytes 0 (body ++ [type']) ≠ unmask (fixed32 b0 b1 b2 b3) := by
  obtain ⟨hne, hkind⟩ := h
  -- the checksum that was stored
  obtain ⟨c0, c1, c2, c3, hcrc⟩ : ∃ c0 c1 c2 c3,
      encodeFixed32 (mask (extendBytes 0 (blockContents ++ [type]))) = [c0, c1, c2, c3] :=
    ⟨_, _, _, _, rfl⟩
  have hunmask : unmask (fixed32 c0 c1 c2 c3) = extendBytes 0 (blockContents ++ [type]) := by
    have hword := fixed32_encodeFixed32 (mask (extendBytes 0 (blockContents ++ [type])))
    rw [encodeFixed32] at hcrc
    simp only [List.cons.injEq, and_true] at hcrc
    obtain ⟨rfl, rfl, rfl, rfl⟩ := hcrc
    rw [hword, Crc32c.unmask_mask]
  have hsealed : sealed blockContents type = blockContents ++ [type] ++ [c0, c1, c2, c3] := by
    rw [sealed, hcrc]
    simp
  have hstored : stored' = body ++ [type'] ++ [b0, b1, b2, b3] := by
    rw [hstored']
    simp
  have hlen : (body ++ [type']).length = (blockContents ++ [type]).length := by
    rw [List.length_append, List.length_append, hbody]
    rfl
  have hlen' : (blockContents ++ [type]).length = blockContents.length + 1 := by simp
  rw [hsealed, hstored] at hkind hne
  rcases hkind with ⟨start, len, h4, hend, hconf⟩ | hconf
  · -- the checksum bytes are untouched
    have hcrceq : [b0, b1, b2, b3] = [c0, c1, c2, c3] := by
      apply List.ext_getElem?
      intro i
      have hi := hconf.agree (blockContents.length + 1 + i) (.inr (by omega))
      rwa [List.getElem?_append_right (by omega), List.getElem?_append_right (by omega), hlen, hlen',
        Nat.add_sub_cancel_left] at hi
    rw [hcrceq] at hne
    have hbodyne : body ++ [type'] ≠ blockContents ++ [type] := fun heq => hne (by rw [heq])
    have hconf' : ConfinedTo (blockContents ++ [type]) (body ++ [type']) start len := by
      refine ⟨hlen, ?_⟩
      intro i hi
      rcases Nat.lt_or_ge i (blockContents ++ [type]).length with hlt | hge
      · have hagree := hconf.agree i hi
        rwa [List.getElem?_append_left (by omega), List.getElem?_append_left hlt] at hagree
      · rw [List.getElem?_eq_none (by omega), List.getElem?_eq_none hge]
    simp only [List.cons.injEq, and_true] at hcrceq
    obtain ⟨rfl, rfl, rfl, rfl⟩ := hcrceq
    rw [hunmask]
    exact extendBytes_confined_ne hconf' h4 (by omega) hbodyne
  · -- contents and type are untouched
    have hbodyeq : body ++ [type'] = blockContents ++ [type] := by
      apply List.ext_getElem?
      intro i
      rcases Nat.lt_or_ge i (blockContents ++ [type]).length with hlt | hge
      · have hagree := hconf.agree i (.inl (by omega))
        rwa [List.getElem?_append_left (by omega), List.getElem?_append_left hlt] at hagree
      · rw [List.getElem?_eq_none (by omega), List.getElem?_eq_none hge]
    rw [hbodyeq] at hne ⊢
    rw [← hunmask]
    exact unmask_fixed32_ne fun heq => hne (by rw [heq])

/-- **No damage of this size is delivered as data.** -/
theorem readBlock_corrupted (snappy : Snappy) (out : WritableFile) (r : TableBuilder)
    (blockContents : Bytes) (type : CompressionType) (stored stored' : Bytes)
    (hok : (r.writeRawBlock out blockContents type).1.status = .ok)
    (hwritten : (r.writeRawBlock out blockContents type).1.appends.bytes
      = r.appends.bytes ++ stored)
    (hdamaged : Damaged blockContents stored stored')
    (file : RandomAccessFile) (contents : Bytes) (hfile : file.Stores contents)
    (hsize : contents.length < 2 ^ 64)
    (hat : contents.HasAt (r.writeRawBlock out blockContents type).2.offset.toNat stored') :
    ∃ s, readBlock snappy file (r.writeRawBlock out blockContents type).2 = .ok (.error s) ∧
      Errors.isDataLoss s = true := by
  rw [writeRawBlock_bytes out r blockContents type hok, List.append_cancel_left_eq] at hwritten
  subst hwritten
  rw [writeRawBlock_handle] at hat ⊢
  have hlen' : stored'.length = blockContents.length + 5 := by
    rw [← sealed_length blockContents type.toByte]
    rcases hdamaged.2 with ⟨_, _, _, _, hconf⟩ | hconf
    · exact hconf.length
    · exact hconf.length
  obtain ⟨body, type', b0, b1, b2, b3, hstored', hbody⟩ := exists_block_split hlen'
  have hmismatch := damaged_mismatch hdamaged hbody hstored'
  have hlen : stored'.length = body.length + 5 := by omega
  have hend := hat.length_le (by rw [hstored']; simp)
  rw [hlen] at hend
  obtain ⟨hread, hdata⟩ := hfile _ _ hend
  have hprefix := List.prefix_iff_eq_take.mp hat
  rw [hlen] at hprefix
  rw [← hprefix, hstored'] at hdata
  have hn : (UInt64.ofNat blockContents.length).toNat = body.length := by
    rw [UInt64.toNat_ofNat', hbody, Nat.mod_eq_of_lt (by omega)]
  rw [readBlock_of_read snappy hn (by omega) rfl hread hdata, if_neg hmismatch]
  exact ⟨_, rfl, rfl⟩

/-- A block of three bytes with its first byte changed. -/
theorem readBlock_corrupted_first_byte :
    let stored' := 0 :: (sealed [1, 2, 3] 0).tail
    ∃ s, readBlock Snappy.identity (linuxRandomAccessFile (RegularFile.whole stored')) ⟨0, 3⟩
      = .ok (.error s) ∧ Errors.isDataLoss s = true := by
  intro stored'
  let block : BlockBuilder := ⟨{}, [], [0], 0, false, []⟩
  let r : TableBuilder := ⟨{}, [], 0, .ok, block, block, [], 0, false, false, .unset, []⟩
  have hdamaged : Damaged [1, 2, 3] (sealed [1, 2, 3] 0) stored' := by
    refine ⟨by simp [stored', sealed], .inl ⟨0, 1, by decide, by decide, ⟨by simp [stored'], ?_⟩⟩⟩
    intro i hi
    obtain ⟨i, rfl⟩ : ∃ k, i = k + 1 := ⟨i - 1, by omega⟩
    rfl
  exact readBlock_corrupted Snappy.identity ⟨fun _ _ => .ok⟩ r [1, 2, 3] .noCompression
    (sealed [1, 2, 3] 0) stored' rfl (writeRawBlock_bytes _ _ _ _ rfl) hdamaged
    (linuxRandomAccessFile (RegularFile.whole stored')) stored'
    (linuxRandomAccessFile_serves _).stores (by simp [stored']) (Bytes.HasAt.self _)

end LearnNetlib.Table
