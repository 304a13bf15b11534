import LearnNetlib.Table.Block

/-!
# Memory safety of the block iterator

For any bytes given to `Block` and any calls on its iterator.

* `decodesAt` — the offsets `p` of every `DecodeEntry` that one call makes;
* `LengthsFit` — the two lengths decoded there do not wrap around into the room that is left;
* `EntryInside` — the entry that `DecodeEntry` hands out lies before its limit;
* `lengthsFit_iff` — **at one offset the two are the same**;
* `Iter.Geometry`, `Iter.Sound` — the restart array lies inside the block, and so does the value of a
  valid iterator; each function keeps them as long as the lengths it decodes fit;
* **`blockRun_inside_iff`** — over whole runs: everything read and handed out lies inside the block
  exactly when the lengths of every entry decoded fit.
-/

namespace LearnNetlib.Table

open Loops Runs SortedCursor

/-! ### One entry -/

/-- Decoding the lengths stays before `limit`. -/
theorem decodeLengths_bounds {data : Bytes} {p limit : ℕ} (hlimit : limit ≤ data.length) :
    decodeLengths data p limit = .ok none ∨
      ∃ e, decodeLengths data p limit = .ok (some e) ∧ p < e.p ∧ e.p ≤ limit := by
  rw [decodeLengths]
  split_ifs with h3
  · exact .inl rfl
  · rw [readByte_of_lt (show p < data.length by omega),
      readByte_of_lt (show p + 1 < data.length by omega),
      readByte_of_lt (show p + 2 < data.length by omega)]
    simp only [Access.ok_bind]
    split_ifs
    · exact .inr ⟨_, rfl, by dsimp only; omega, by dsimp only; omega⟩
    · rcases getVarint32Ptr_bounds (p := p) hlimit with h | ⟨shared, p₁, h, hp₁⟩
      · simp [h]
      · rcases getVarint32Ptr_bounds (p := p₁) hlimit with h' | ⟨nonShared, p₂, h', hp₂⟩
        · simp [h, h']
        · rcases getVarint32Ptr_bounds (p := p₂) hlimit with h'' | ⟨valueLength, p₃, h'', hp₃⟩
          · simp [h, h', h'']
          · refine .inr ⟨⟨p₃, shared, nonShared, valueLength⟩, by simp [h, h', h''], ?_, hp₃.2⟩
            dsimp only
            omega

/-- The lengths decoded at `p` fit in 32 bits together, or exceed the room even after wrapping. -/
def LengthsFit (data : Bytes) (p limit : ℕ) : Prop :=
  ∀ e, decodeLengths data p limit = .ok (some e) →
    e.nonShared.toNat + e.valueLength.toNat < 2 ^ 32 ∨
      limit - e.p < (e.nonShared.toNat + e.valueLength.toNat) % 2 ^ 32

/-- The key delta and the value that `DecodeEntry` hands out lie before `limit`. -/
def EntryInside (data : Bytes) (p limit : ℕ) : Prop :=
  ∀ e, decodeEntry data p limit = .ok (some e) →
    e.p + e.nonShared.toNat + e.valueLength.toNat ≤ limit

theorem checkRoom_eq_some_iff {limit : ℕ} (h32 : limit < 2 ^ 32) (e e' : DecodedEntry) :
    checkRoom limit e = some e' ↔
      (e.nonShared.toNat + e.valueLength.toNat) % 2 ^ 32 ≤ limit - e.p ∧ e' = e := by
  have hroom : (UInt32.ofNat (limit - e.p)).toNat = limit - e.p := by
    rw [UInt32.toNat_ofNat']
    omega
  rw [checkRoom]
  split_ifs with h
  all_goals rw [UInt32.lt_iff_toNat_lt, UInt32.toNat_add, hroom] at h
  · simp only [false_iff, not_and]
    omega
  · rw [Option.some.injEq]
    exact ⟨fun he => ⟨by omega, he.symm⟩, fun he => he.2.symm⟩

theorem decodeEntry_eq_some_iff {data : Bytes} {p limit : ℕ} (h32 : limit < 2 ^ 32)
    (e : DecodedEntry) :
    decodeEntry data p limit = .ok (some e) ↔
      decodeLengths data p limit = .ok (some e) ∧
        (e.nonShared.toNat + e.valueLength.toNat) % 2 ^ 32 ≤ limit - e.p := by
  rw [decodeEntry]
  cases h : decodeLengths data p limit with
  | error s => simp
  | ok r =>
    cases r with
    | none => simp
    | some e₀ =>
      simp only [Access.ok_bind, Access.pure_eq, Option.bind_some, Except.ok.injEq,
        Option.some.injEq, checkRoom_eq_some_iff h32]
      constructor
      · rintro ⟨hle, rfl⟩
        exact ⟨rfl, hle⟩
      · rintro ⟨rfl, hle⟩
        exact ⟨hle, rfl⟩

/-- **The entry handed out lies inside exactly when the lengths fit.** -/
theorem lengthsFit_iff {data : Bytes} {p limit : ℕ} (hlimit : limit ≤ data.length)
    (h32 : limit < 2 ^ 32) : LengthsFit data p limit ↔ EntryInside data p limit := by
  constructor
  · intro hfit e he
    obtain ⟨hlen, hroom⟩ := (decodeEntry_eq_some_iff h32 e).mp he
    have hbounds := decodeLengths_bounds (p := p) hlimit
    rw [hlen] at hbounds
    obtain ⟨e', he', -, hp⟩ := hbounds.resolve_left (by simp)
    simp only [Except.ok.injEq, Option.some.injEq] at he'
    subst he'
    rcases hfit e hlen with h | h
    · rw [Nat.mod_eq_of_lt h] at hroom
      omega
    · omega
  · intro hinside e he
    by_contra hnot
    rw [not_or, Nat.not_lt, Nat.not_lt] at hnot
    have := hinside e ((decodeEntry_eq_some_iff h32 e).mpr ⟨he, hnot.2⟩)
    omega

/-- Decoding an entry whose lengths fit. -/
theorem decodeEntry_outcome {data : Bytes} {p limit : ℕ} (hlimit : limit ≤ data.length)
    (h32 : limit < 2 ^ 32) (hfit : LengthsFit data p limit) :
    decodeEntry data p limit = .ok none ∨
      ∃ e, decodeEntry data p limit = .ok (some e) ∧
        e.p + e.nonShared.toNat + e.valueLength.toNat ≤ limit := by
  have hinside := (lengthsFit_iff hlimit h32).mp hfit
  have hres : ∃ r, decodeEntry data p limit = .ok r := by
    rw [decodeEntry]
    rcases decodeLengths_bounds (p := p) hlimit with h | ⟨e, h, -⟩
    · exact ⟨none, by rw [h]; rfl⟩
    · exact ⟨checkRoom limit e, by rw [h]; rfl⟩
  obtain ⟨r, hr⟩ := hres
  cases r with
  | none => exact .inl hr
  | some e => exact .inr ⟨e, hr, hinside e hr⟩

/-! ### What one call decodes -/

namespace Iter

/-- `DecodeEntry` in `ParseNextKey`. -/
def scanDecodes (it : Iter) : List ℕ :=
  match it.nextEntryOffset with
  | .ok current => if current < it.restarts then [current.toNat] else []
  | .error _ => []

/-- `DecodeEntry` in a turn of the binary search. -/
def searchDecodes (it : Iter) (s : UInt32 × UInt32) : List ℕ :=
  if s.1 < s.2 then
    match it.getRestartPoint ((s.1 + s.2 + 1) / 2) with
    | .ok regionOffset => [regionOffset.toNat]
    | .error _ => []
  else []

/-- `DecodeEntry` in `Seek`. -/
def seekDecodes (fuel : ℕ) (target : Bytes) (it : Iter) : List ℕ :=
  (heads (it.searchTurn target) fuel (0, it.numRestarts - 1)).flatMap it.searchDecodes ++
    match loop .stillRunning (it.searchTurn target) fuel (0, it.numRestarts - 1) with
    | .ok (some left) =>
      match it.seekToRestartPoint left with
      | .ok it => (heads (scanTurn fuel target) fuel it).flatMap scanDecodes
      | .error _ => []
    | _ => []

/-- `DecodeEntry` in `SeekToFirst`. -/
def firstDecodes (it : Iter) : List ℕ :=
  match it.seekToRestartPoint 0 with
  | .ok it => it.scanDecodes
  | .error _ => []

end Iter

/-- The offsets of every `DecodeEntry` that one call makes. -/
def decodesAt (fuel : ℕ) : BlockIterator → Op Bytes → List ℕ
  | .empty _, _ => []
  | .iter it, .seekToFirst => it.firstDecodes
  | .iter it, .seek t => it.seekDecodes fuel t
  | .iter it, .next => if it.valid then it.scanDecodes else []

/-! ### The invariants -/

namespace Iter

/-- The restart array lies inside the block. -/
structure Geometry (it : Iter) : Prop where
  pos : 0 < it.numRestarts.toNat
  inside : it.restarts.toNat + 4 * it.numRestarts.toNat ≤ it.data.length

/-- The parts of the iterator that never change. -/
def SameBlock (it it' : Iter) : Prop :=
  it'.data = it.data ∧ it'.restarts = it.restarts ∧ it'.numRestarts = it.numRestarts

/-- The value of a valid iterator lies before the restart array. -/
def ValueInside (it : Iter) : Prop :=
  it.valid = true → ∃ p n, it.value = some (p, n) ∧ p + n ≤ it.restarts.toNat

structure Sound (it : Iter) : Prop where
  geometry : it.Geometry
  value : it.ValueInside

variable {it it' : Iter}

theorem SameBlock.geometry (h : SameBlock it it') (hg : it.Geometry) : it'.Geometry := by
  obtain ⟨hdata, hrestarts, hnum⟩ := h
  exact ⟨by rw [hnum]; exact hg.pos, by rw [hnum, hrestarts, hdata]; exact hg.inside⟩

theorem SameBlock.trans {it'' : Iter} (h : SameBlock it it') (h' : SameBlock it' it'') :
    SameBlock it it'' :=
  ⟨h'.1.trans h.1, h'.2.1.trans h.2.1, h'.2.2.trans h.2.2⟩

theorem Geometry.limit_le (hg : it.Geometry) : it.restarts.toNat ≤ it.data.length := by
  have := hg.inside
  omega

theorem Geometry.getRestartPoint (hg : it.Geometry) {index : UInt32}
    (hindex : index < it.numRestarts) : ∃ point, it.getRestartPoint index = .ok point := by
  have hin := hg.inside
  rw [UInt32.lt_iff_toNat_lt] at hindex
  rw [Iter.getRestartPoint, if_pos (UInt32.lt_iff_toNat_lt.mpr hindex)]
  exact decodeFixed32_of_le (by omega)

theorem valid_corruptionError (it : Iter) : it.corruptionError.valid = false := by
  simp [valid, corruptionError]

/-- The loop over `restart_index_` only reads restart points. -/
theorem restartLoop_ensures (hg : it.Geometry) (fuel : ℕ) (index : UInt32) :
    Access.Ensures (loop .stillRunning it.restartTurn fuel index) fun _ => True := by
  refine loop_outcome (fun _ => True) (fun _ => True) (fun r => Access.Ensures r fun _ => True)
    rfl ?_ trivial fun _ _ => trivial
  intro index _ _
  rw [restartTurn]
  split_ifs with h
  · obtain ⟨point, hpoint⟩ := hg.getRestartPoint h
    rw [hpoint, Access.ok_bind]
    split_ifs <;> trivial
  · trivial

/-- What `ParseNextKey` promises. -/
structure Parsed (it : Iter) (r : Bool × Iter) : Prop where
  same : SameBlock it r.2
  value : r.2.ValueInside
  found : r.1 = true → r.2.value.isSome = true

/-- **`ParseNextKey` stays inside the block** when the lengths it decodes fit. -/
theorem parseNextKey_ensures (hg : it.Geometry) (hv : it.value.isSome = true) (fuel : ℕ)
    (hfit : ∀ p ∈ it.scanDecodes, LengthsFit it.data p it.restarts.toNat) :
    (it.parseNextKey fuel).Ensures it.Parsed := by
  obtain ⟨⟨q, m⟩, hq⟩ := Option.isSome_iff_exists.mp hv
  have hnext : it.nextEntryOffset = .ok (UInt32.ofNat (q + m)) := by rw [nextEntryOffset, hq]
  rw [parseNextKey, hnext, Access.ok_bind]
  rw [scanDecodes, hnext] at hfit
  dsimp only at hfit ⊢
  split_ifs with hend
  · refine ⟨⟨rfl, rfl, rfl⟩, ?_, by simp⟩
    intro hvalid
    simp [valid] at hvalid
  · rw [if_pos (UInt32.not_le.mp hend)] at hfit
    rcases decodeEntry_outcome hg.limit_le it.restarts.toNat_lt
        (hfit _ (List.mem_singleton.mpr rfl)) with hnone | ⟨e, hsome, hin⟩
    · rw [hnone, Access.ok_bind]
      refine ⟨⟨rfl, rfl, rfl⟩, ?_, by simp⟩
      exact fun h => absurd (valid_corruptionError _) (by rw [h]; decide)
    · rw [hsome, Access.ok_bind]
      dsimp only
      split_ifs
      · refine ⟨⟨rfl, rfl, rfl⟩, ?_, by simp⟩
        exact fun h => absurd (valid_corruptionError _) (by rw [h]; decide)
      · have hlimit := hg.limit_le
        rw [readBytes_of_le (by omega), Access.ok_bind]
        have hg' : Geometry { it with
            current := UInt32.ofNat (q + m)
            key := it.key.take e.shared.toNat ++ (it.data.drop e.p).take e.nonShared.toNat
            value := some (e.p + e.nonShared.toNat, e.valueLength.toNat) } := ⟨hg.pos, hg.inside⟩
        refine Access.Ensures.bind (restartLoop_ensures hg' fuel it.restartIndex) fun index _ => ?_
        exact ⟨⟨rfl, rfl, rfl⟩, fun _ => ⟨_, _, rfl, hin⟩, fun _ => rfl⟩

/-- The binary search stays inside the restart array. -/
def SearchInside (it : Iter) (s : UInt32 × UInt32) : Prop :=
  s.1.toNat < it.numRestarts.toNat ∧
    (s.2.toNat < it.numRestarts.toNat ∨ 2 ^ 31 ≤ it.numRestarts.toNat)

theorem mid_toNat (l r : UInt32) :
    ((l + r + 1) / 2).toNat = (l.toNat + r.toNat + 1) % 2 ^ 32 / 2 := by
  rw [UInt32.toNat_div, UInt32.toNat_add, UInt32.toNat_add, Nat.mod_add_mod]
  rfl

theorem sub_one_toNat (x : UInt32) : (x - 1).toNat = (x.toNat + (2 ^ 32 - 1)) % 2 ^ 32 := by
  rw [UInt32.toNat_sub, Nat.add_comm]
  rfl

/-- Both ways on keep the search inside, also where `left + right + 1` wraps around. -/
theorem SearchInside.mid {s : UInt32 × UInt32} (h : it.SearchInside s) (hlt : s.1 < s.2) :
    (s.1 + s.2 + 1) / 2 < it.numRestarts ∧
      it.SearchInside ((s.1 + s.2 + 1) / 2, s.2) ∧
      it.SearchInside (s.1, (s.1 + s.2 + 1) / 2 - 1) := by
  obtain ⟨hl, hr⟩ := h
  rw [UInt32.lt_iff_toNat_lt] at hlt ⊢
  have hs2 := s.2.toNat_lt
  have hmid := mid_toNat s.1 s.2
  refine ⟨by omega, ⟨by dsimp only; omega, hr⟩, ⟨hl, ?_⟩⟩
  dsimp only
  rw [sub_one_toNat, hmid]
  omega

theorem searchTurn_keeps (hg : it.Geometry) (target : Bytes) {s : UInt32 × UInt32}
    (hs : it.SearchInside s) (hfit : ∀ p ∈ it.searchDecodes s, LengthsFit it.data p it.restarts.toNat) :
    TurnKeeps it.SearchInside
      (fun r => Access.Ensures r fun o => ∀ left, o = some left → left < it.numRestarts)
      (it.searchTurn target s) := by
  rw [searchTurn]
  split_ifs with hlt
  · obtain ⟨hmid, hright, hleft⟩ := hs.mid hlt
    obtain ⟨point, hpoint⟩ := hg.getRestartPoint hmid
    rw [searchDecodes, if_pos hlt, hpoint] at hfit
    dsimp only at hfit ⊢
    rw [hpoint, Access.ok_bind]
    rcases decodeEntry_outcome hg.limit_le it.restarts.toNat_lt
        (hfit _ (List.mem_singleton.mpr rfl)) with hnone | ⟨e, hsome, hin⟩
    · rw [hnone, Access.ok_bind]
      exact fun left h => by simp at h
    · rw [hsome, Access.ok_bind]
      dsimp only
      split_ifs
      · exact fun left h => by simp at h
      · have hlimit := hg.limit_le
        rw [readBytes_of_le (by omega), Access.ok_bind]
        split_ifs
        · exact hright
        · exact hleft
  · intro left h
    simp only [Option.some.injEq] at h
    rw [← h]
    exact UInt32.lt_iff_toNat_lt.mpr hs.1

/-- The state `SeekToRestartPoint` leaves. -/
theorem seekToRestartPoint_eq (hg : it.Geometry) {index : UInt32}
    (hindex : index < it.numRestarts) :
    ∃ it', it.seekToRestartPoint index = .ok it' ∧ SameBlock it it' ∧ it'.value.isSome = true := by
  obtain ⟨point, hpoint⟩ := hg.getRestartPoint hindex
  refine ⟨{ it with key := [], restartIndex := index, value := some (point.toNat, 0) }, ?_,
    ⟨rfl, rfl, rfl⟩, rfl⟩
  rw [seekToRestartPoint, hpoint]
  rfl

/-- **`Seek` stays inside the block** when the lengths it decodes fit. -/
theorem seek_ensures (hg : it.Geometry) (fuel : ℕ) (target : Bytes)
    (hfit : ∀ p ∈ it.seekDecodes fuel target, LengthsFit it.data p it.restarts.toNat) :
    (it.seek fuel target).Ensures fun it' => SameBlock it it' ∧ it'.ValueInside := by
  rw [seekDecodes] at hfit
  have hpos := hg.pos
  have hfirst : it.SearchInside (0, it.numRestarts - 1) := by
    refine ⟨hpos, .inl ?_⟩
    have := it.numRestarts.toNat_lt
    rw [sub_one_toNat]
    omega
  have hsearch : Access.Ensures
      (loop .stillRunning (it.searchTurn target) fuel (0, it.numRestarts - 1))
      fun o => ∀ left, o = some left → left < it.numRestarts :=
    loop_outcome it.SearchInside
      (fun s => ∀ p ∈ it.searchDecodes s, LengthsFit it.data p it.restarts.toNat)
      (fun r => Access.Ensures r fun o => ∀ left, o = some left → left < it.numRestarts)
      rfl (fun s hs hguard => searchTurn_keeps hg target hs hguard) hfirst
      fun s hs p hp => hfit p (List.mem_append_left _ (List.mem_flatMap.mpr ⟨s, hs, hp⟩))
  rw [seek]
  cases hloop : loop .stillRunning (it.searchTurn target) fuel (0, it.numRestarts - 1) with
  | error s =>
    rw [hloop] at hsearch
    exact hsearch
  | ok o =>
    rw [hloop] at hsearch hfit
    cases o with
    | none =>
      rw [Access.ok_bind]
      refine ⟨⟨rfl, rfl, rfl⟩, ?_⟩
      exact fun h => absurd (valid_corruptionError _) (by rw [h]; decide)
    | some left =>
      obtain ⟨it₁, hit₁, hsame₁, hv₁⟩ := seekToRestartPoint_eq hg (hsearch left rfl)
      simp only [hit₁] at hfit
      rw [Access.ok_bind]
      dsimp only
      rw [hit₁, Access.ok_bind]
      -- every turn of the scan is a `ParseNextKey`
      refine loop_outcome (fun it₂ => SameBlock it it₂ ∧ it₂.value.isSome = true)
        (fun it₂ => ∀ p ∈ it₂.scanDecodes, LengthsFit it.data p it.restarts.toNat)
        (fun r => Access.Ensures r fun it' => SameBlock it it' ∧ it'.ValueInside)
        rfl ?_ ⟨hsame₁, hv₁⟩
        fun s hs p hp => hfit p (List.mem_append_right _ (List.mem_flatMap.mpr ⟨s, hs, hp⟩))
      rintro it₂ ⟨hsame₂, hv₂⟩ hguard
      have hparse := parseNextKey_ensures (hsame₂.geometry hg) hv₂ fuel
        (by rw [hsame₂.1, hsame₂.2.1]; exact hguard)
      rw [scanTurn]
      cases hres : it₂.parseNextKey fuel with
      | error s =>
        rw [hres] at hparse
        exact hparse
      | ok r =>
        rw [hres] at hparse
        obtain ⟨found, it₃⟩ := r
        have hsame₃ := hsame₂.trans hparse.same
        rw [Access.ok_bind]
        dsimp only
        cases found with
        | false => exact ⟨hsame₃, hparse.value⟩
        | true =>
          rw [if_neg (by simp)]
          split_ifs
          · exact ⟨hsame₃, hparse.value⟩
          · exact ⟨hsame₃, hparse.found rfl⟩

/-- `SeekToFirst` stays inside the block. -/
theorem seekToFirst_ensures (hg : it.Geometry) (fuel : ℕ)
    (hfit : ∀ p ∈ it.firstDecodes, LengthsFit it.data p it.restarts.toNat) :
    (it.seekToFirst fuel).Ensures fun it' => SameBlock it it' ∧ it'.ValueInside := by
  have hpos : (0 : UInt32) < it.numRestarts := UInt32.lt_iff_toNat_lt.mpr hg.pos
  obtain ⟨it₁, hit₁, hsame₁, hv₁⟩ := seekToRestartPoint_eq hg hpos
  rw [firstDecodes, hit₁] at hfit
  rw [seekToFirst, hit₁, Access.ok_bind]
  refine Access.Ensures.bind
    (parseNextKey_ensures (hsame₁.geometry hg) hv₁ fuel
      (by rw [hsame₁.1, hsame₁.2.1]; exact hfit)) fun r hr => ?_
  exact ⟨hsame₁.trans hr.same, hr.value⟩

/-- `Next` stays inside the block. -/
theorem next_ensures (h : it.Sound) (hvalid : it.valid = true) (fuel : ℕ)
    (hfit : ∀ p ∈ it.scanDecodes, LengthsFit it.data p it.restarts.toNat) :
    (it.next fuel).Ensures fun it' => SameBlock it it' ∧ it'.ValueInside := by
  obtain ⟨p, n, hvalue, -⟩ := h.value hvalid
  rw [next, if_pos hvalid]
  refine Access.Ensures.bind (parseNextKey_ensures h.geometry (by rw [hvalue]; rfl) fuel hfit)
    fun r hr => ?_
  exact ⟨hr.same, hr.value⟩

/-- Reading the value of a sound iterator. -/
theorem valueBytes_eq (h : it.Sound) (hvalid : it.valid = true) :
    ∃ value, it.valueBytes = .ok value := by
  obtain ⟨p, n, hvalue, hin⟩ := h.value hvalid
  have hlimit := h.geometry.limit_le
  rw [valueBytes, if_pos hvalid, hvalue]
  exact ⟨_, readBytes_of_le (by omega)⟩

end Iter

/-! ### Opening a block -/

/-- `Block(contents).NewIterator()`. -/
def openBlock (contents : Bytes) : Access BlockIterator := do
  let b ← Block.new contents
  b.newIterator

/-- Where the entries of a block end. -/
def BlockIterator.limit : BlockIterator → ℕ
  | .empty _ => 0
  | .iter it => it.restarts.toNat

/-- The iterator of a block: empty, or over a restart array inside the block. -/
def BlockSound (contents : Bytes) (limit : ℕ) : BlockIterator → Prop
  | .empty _ => True
  | .iter it => it.Sound ∧ it.data = contents ∧ it.restarts.toNat = limit

theorem Iter.new_valid (data : Bytes) (restarts numRestarts : UInt32) :
    (Iter.new data restarts numRestarts).valid = false := by
  simp [Iter.valid, Iter.new]

/-- **Any bytes can be opened**, and the restart array found in them lies inside. -/
theorem openBlock_sound (contents : Bytes) :
    ∃ bi, openBlock contents = .ok bi ∧ BlockSound contents bi.limit bi := by
  rw [openBlock, Block.new]
  dsimp only
  split_ifs with h4
  · exact ⟨_, rfl, trivial⟩
  · obtain ⟨n, hn⟩ := decodeFixed32_of_le (show contents.length - 4 + 4 ≤ contents.length by omega)
    have hnum : Block.numRestarts ⟨contents, contents.length, 0⟩ = .ok n := by
      rw [Block.numRestarts, if_pos (by dsimp only; omega)]
      exact hn
    rw [hnum, Access.ok_bind]
    split_ifs with hmany
    · exact ⟨_, rfl, trivial⟩
    · rw [Access.pure_eq, Access.ok_bind, Block.newIterator, if_neg (by dsimp only; omega)]
      have hnum' : Block.numRestarts ⟨contents, contents.length,
          UInt32.ofNat (contents.length - (1 + n).toNat * 4)⟩ = .ok n := by
        rw [Block.numRestarts, if_pos (by dsimp only; omega)]
        exact hn
      rw [hnum', Access.ok_bind]
      split_ifs with hzero
      · exact ⟨_, rfl, trivial⟩
      · refine ⟨_, rfl, ⟨⟨?_, ?_⟩, ?_⟩, rfl, rfl⟩
        · rw [Nat.pos_iff_ne_zero]
          exact fun h => hzero (UInt32.toNat_inj.mp h)
        · -- the offset is reduced modulo `2 ^ 32`, and so is `1 + n`
          have hlt := n.toNat_lt
          simp only [Iter.new, UInt32.toNat_ofNat', UInt32.toNat_add]
          rw [show (1 : UInt32).toNat = 1 from rfl]
          omega
        · intro h
          rw [Iter.new_valid] at h
          exact absurd h (by decide)

/-- The entries end inside the block. -/
theorem BlockSound.limit_le {contents : Bytes} {bi : BlockIterator}
    (h : BlockSound contents bi.limit bi) :
    bi.limit ≤ contents.length ∧ bi.limit < 2 ^ 32 := by
  cases bi with
  | empty it => exact ⟨Nat.zero_le _, Nat.two_pow_pos 32⟩
  | iter it =>
    obtain ⟨hsound, rfl, -⟩ := h
    exact ⟨hsound.geometry.limit_le, it.restarts.toNat_lt⟩

/-! ### Runs -/

section

variable {contents : Bytes} {limit : ℕ} {bi : BlockIterator}

theorem BlockSound.seen (h : BlockSound contents limit bi) (fuel : ℕ) :
    ∃ s, seen (BlockIterator.ops fuel) bi = .ok s := by
  cases bi with
  | empty it => exact ⟨_, rfl⟩
  | iter it =>
    rw [Table.seen]
    split_ifs with hvalid
    · obtain ⟨value, hvalue⟩ := Iter.valueBytes_eq h.1 hvalid
      refine ⟨(some (it.key, value), it.status), ?_⟩
      rw [show (BlockIterator.ops fuel).value (.iter it) = it.valueBytes from rfl, hvalue]
      rfl
    · exact ⟨_, rfl⟩

theorem call_ensures (h : BlockSound contents limit bi) (fuel : ℕ) (op : Op Bytes)
    (hfit : ∀ p ∈ decodesAt fuel bi op, LengthsFit contents p limit) :
    (call (BlockIterator.ops fuel) bi op).Ensures (BlockSound contents limit) := by
  cases bi with
  | empty it => cases op <;> trivial
  | iter it =>
    obtain ⟨hsound, rfl, rfl⟩ := h
    have hlift : ∀ {x : Access Iter}, x.Ensures (fun it' => Iter.SameBlock it it' ∧ it'.ValueInside) →
        Access.Ensures (BlockIterator.iter <$> x) (BlockSound it.data it.restarts.toNat) := by
      intro x hx
      cases x with
      | error s => exact hx
      | ok it' =>
        exact ⟨⟨hx.1.geometry hsound.geometry, hx.2⟩, hx.1.1, congrArg UInt32.toNat hx.1.2.1⟩
    cases op with
    | seekToFirst => exact hlift (Iter.seekToFirst_ensures hsound.geometry fuel hfit)
    | seek t => exact hlift (Iter.seek_ensures hsound.geometry fuel t hfit)
    | next =>
      by_cases hvalid : it.valid = true
      · rw [decodesAt, if_pos hvalid] at hfit
        rw [call, show (BlockIterator.ops fuel).valid (.iter it) = it.valid from rfl,
          if_pos hvalid]
        exact hlift (Iter.next_ensures hsound hvalid fuel hfit)
      · rw [call, show (BlockIterator.ops fuel).valid (.iter it) = it.valid from rfl,
          if_neg hvalid]
        exact ⟨hsound, rfl, rfl⟩

/-- One call stays inside the block when the lengths it decodes fit. -/
theorem blockStep_ends (h : BlockSound contents limit bi) (fuel : ℕ) (op : Op Bytes)
    (hfit : ∀ p ∈ decodesAt fuel bi op, LengthsFit contents p limit) :
    Ends (BlockSound contents limit) (· = .stillRunning)
      (iteratorStep (BlockIterator.ops fuel) bi op) := by
  have hcall := call_ensures h fuel op hfit
  rw [iteratorStep]
  cases hres : call (BlockIterator.ops fuel) bi op with
  | error s =>
    rw [hres] at hcall
    exact hcall
  | ok bi' =>
    rw [hres] at hcall
    obtain ⟨s, hs⟩ := BlockSound.seen hcall fuel
    rw [Access.ok_bind, hs]
    exact hcall

end

/-- The offsets at which a run of calls on a block decodes entries. -/
def blockDecodes (fuel : ℕ) (bi : BlockIterator) (calls : List (Op Bytes)) : List ℕ :=
  visits (decodesAt fuel) (iteratorStep (BlockIterator.ops fuel)) bi calls

/-- A run of calls on a block. -/
def blockRun (fuel : ℕ) (bi : BlockIterator) (calls : List (Op Bytes)) :
    Access (List Seen × BlockIterator) :=
  run (iteratorStep (BlockIterator.ops fuel)) bi calls

/-- **Everything read and handed out lies inside the block exactly when the lengths of every entry
decoded fit**: for any bytes, any calls and any number of steps. -/
theorem blockRun_inside_iff (contents : Bytes) (fuel : ℕ) (calls : List (Op Bytes)) :
    ∃ bi, openBlock contents = .ok bi ∧ bi.limit ≤ contents.length ∧
      ((∀ p ∈ blockDecodes fuel bi calls, LengthsFit contents p bi.limit) ↔
        (∀ p ∈ blockDecodes fuel bi calls, EntryInside contents p bi.limit) ∧
          Ends (BlockSound contents bi.limit) (· = .stillRunning) (blockRun fuel bi calls)) := by
  obtain ⟨bi, hopen, hsound⟩ := openBlock_sound contents
  obtain ⟨hlimit, h32⟩ := hsound.limit_le
  refine ⟨bi, hopen, hlimit, ?_, ?_⟩
  · intro hfit
    refine ⟨fun p hp => (lengthsFit_iff hlimit h32).mp (hfit p hp), ?_⟩
    exact run_guarded (fun bi op h hguard => blockStep_ends h fuel op hguard) hsound hfit
  · intro h p hp
    exact (lengthsFit_iff hlimit h32).mpr (h.1 p hp)

/-- One entry whose lengths `2 ^ 32 - 1` and `2` add up to one in 32 bits, one byte, and one restart
point. -/
def wrappingBlock : Bytes :=
  [0x00, 0xff, 0xff, 0xff, 0xff, 0x0f, 0x02, 0x61, 0, 0, 0, 0, 1, 0, 0, 0]

/-- Its first entry is handed out beyond the block, and copying its key reads outside. -/
theorem blockRun_wrappingBlock :
    ∃ bi, openBlock wrappingBlock = .ok bi ∧
      blockRun 2 bi [.seekToFirst] = .error .outOfBounds ∧
      ¬ ∀ p ∈ blockDecodes 2 bi [.seekToFirst], EntryInside wrappingBlock p bi.limit := by
  refine ⟨.iter (Iter.new wrappingBlock 8 1), rfl, rfl, ?_⟩
  intro h
  have h0 := h 0 (List.mem_singleton.mpr rfl) ⟨7, 0, 0xffffffff, 2⟩ rfl
  exact absurd h0 (by decide)

end LearnNetlib.Table
