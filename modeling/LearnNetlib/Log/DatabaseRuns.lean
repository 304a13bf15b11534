import LearnNetlib.Log.LeveldbDatabase
import Mathlib.Order.Bounds.Image

/-!
# Every run of `LeveldbDatabase`

* `Stored`, `Indexes` — the entries in the store, and what the structures in memory say about them;
  `Indexes.unique`: the stored entries determine the structures;
* `insertEntryMapping_indexes` — one more number;
* `Sound` — the invariant: every pair in the store is an entry under its key, numbers are at least
  `low`, and the structures are those of the stored entries;
* **`createSequencedEntry_sound`**, **`buildIndex_eq`**, **`perform_sound`** — what one call does;
* **`run_sound`** — what every run does.
-/

namespace LearnNetlib.Log

open Foundations Frontier SortedCursor

variable {E σ : Type} {S : OrderedStore Bytes Bytes σ} {L : LoggedEntry E}

/-! ### What the structures say -/

variable (L) in
/-- What is put for an entry. -/
def pairOf (e : E) : Bytes × Bytes := (indexToKey (L.sequenceNumber e), L.serializeToString e)

variable (S L) in
/-- The entry is in the store, under its key. -/
def Stored (db : σ) (e : E) : Prop := pairOf L e ∈ S.entries db

variable (L) in
/-- The structures in memory are those of a set of entries. -/
structure Indexes (index : Index) (es : Set E) : Prop where
  tracks : Tracks Int64.toInt (L.sequenceNumber '' es) index.contiguousSize index.sparseEntries
  leasts : Leasts (fun h => L.sequenceNumber '' {e ∈ es | L.hash e = h}) index.idByHash

namespace Indexes

theorem nothing : Indexes L Index.empty ∅ where
  tracks := by
    rw [Set.image_empty]
    exact Tracks.nothing
  leasts h := by simp [Index.empty]

/-- **The entries determine the structures.** -/
theorem unique {index index' : Index} {es : Set E} (h : Indexes L index es)
    (h' : Indexes L index' es) : index = index' := by
  obtain ⟨hc, hl⟩ := h.tracks.unique h'.tracks
  have hm := h.leasts.unique h'.leasts
  cases index
  cases index'
  simp_all

end Indexes

/-- **One more number**: `InsertEntryMapping` passes its `CHECK`. -/
theorem insertEntryMapping_indexes {index : Index} {es : Set E} (h : Indexes L index es) {e : E}
    (he : L.sequenceNumber e ∉ L.sequenceNumber '' es) :
    ∃ index', insertEntryMapping index (L.sequenceNumber e) (L.hash e) = .ok index' ∧
      Indexes L index' (insert e es) := by
  have hleasts : Leasts (fun h => L.sequenceNumber '' {x ∈ insert e es | L.hash x = h})
      (Function.update index.idByHash (L.hash e) (some ((index.idByHash (L.hash e)).elim
        (L.sequenceNumber e) fun id => min id (L.sequenceNumber e)))) := by
    apply h.leasts.insert
    · rw [← Set.image_insert_eq]
      congr 1
      ext x
      simp only [Set.mem_ofPred_eq, Set.mem_insert_iff]
      constructor
      · rintro ⟨rfl | hx, hh⟩
        · exact .inl rfl
        · exact .inr ⟨hx, hh⟩
      · rintro (rfl | ⟨hx, hh⟩)
        · exact ⟨.inl rfl, rfl⟩
        · exact ⟨.inr hx, hh⟩
    · intro k hk
      congr 1
      ext x
      simp only [Set.mem_ofPred_eq, Set.mem_insert_iff]
      constructor
      · rintro ⟨rfl | hx, hh⟩
        · exact absurd hh.symm hk
        · exact ⟨hx, hh⟩
      · exact fun hx => ⟨.inr hx.1, hx.2⟩
  rw [insertEntryMapping]
  by_cases hc : (L.sequenceNumber e).toInt = index.contiguousSize
  · rw [if_pos hc]
    have htracks := h.tracks
    rw [← hc] at htracks ⊢
    refine ⟨_, rfl, ?_, hleasts⟩
    rw [Set.image_insert_eq]
    exact htracks.reached fun _ _ => Int64.lt_iff_toInt_lt.mp
  · obtain ⟨hnew, htracks⟩ := h.tracks.waiting he hc fun _ _ => Int64.toInt_inj.mp
    rw [if_neg hc, check_of hnew]
    refine ⟨_, rfl, ?_, hleasts⟩
    rw [Set.image_insert_eq]
    exact htracks

/-! ### The invariant -/

variable (S L) in
structure Sound (low : ℤ) (D : LeveldbDatabase σ) : Prop where
  /-- Nothing else is in the store. -/
  pairs : ∀ kv ∈ S.entries D.db, ∃ e, kv = pairOf L e ∧ low ≤ (L.sequenceNumber e).toInt
  index : Indexes L D.index {e | Stored S L D.db e}

theorem pairOf_injective (hL : L.RoundTrips) : Function.Injective (pairOf L) := by
  intro e e' h
  have hdata : L.serializeToString e = L.serializeToString e' := congrArg Prod.snd h
  have hparse := hL e
  rw [hdata, hL e', Option.some_inj] at hparse
  exact hparse.symm

theorem parseEntry_serializeToString (hL : L.RoundTrips) (e : E) :
    parseEntry L (L.serializeToString e) = .ok e := by
  rw [parseEntry, hL]

/-- Weaker bounds are kept, too. -/
theorem Sound.mono {low low' : ℤ} {D : LeveldbDatabase σ} (h : Sound S L low D) (hle : low' ≤ low) :
    Sound S L low' D where
  pairs kv hkv := by
    obtain ⟨e, rfl, he⟩ := h.pairs kv hkv
    exact ⟨e, rfl, hle.trans he⟩
  index := h.index

section Lawful

variable (hS : S.Lawful) (hL : L.RoundTrips) {low : ℤ} {D : LeveldbDatabase σ}
include hS hL

/-- What `Get` finds is the entry stored under that key. -/
theorem Sound.of_get (h : Sound S L low D) {key data : Bytes} (hget : S.get D.db key = some data) :
    ∃ e, Stored S L D.db e ∧ key = indexToKey (L.sequenceNumber e) ∧
      parseEntry L data = .ok e ∧ low ≤ (L.sequenceNumber e).toInt := by
  have hmem := (hS.get_eq_some _ _ _).mp hget
  obtain ⟨e, he, hlow⟩ := h.pairs _ hmem
  rw [pairOf, Prod.mk.injEq] at he
  obtain ⟨rfl, rfl⟩ := he
  exact ⟨e, hmem, rfl, parseEntry_serializeToString hL e, hlow⟩

omit hL in
theorem get_of_stored {db : σ} {e : E} (h : Stored S L db e) :
    S.get db (indexToKey (L.sequenceNumber e)) = some (L.serializeToString e) :=
  (hS.get_eq_some _ _ _).mpr h

/-! ### Writing -/

/-- What a write that finds its key free does. -/
theorem createSequencedEntry_fresh (h : Sound S L low D) {e : E}
    (hlow : low ≤ (L.sequenceNumber e).toInt)
    (hfree : S.get D.db (indexToKey (L.sequenceNumber e)) = none) :
    ∃ D', createSequencedEntry S L D e = .ok (.ok, D') ∧ Sound S L low D' ∧
      ∀ e', Stored S L D'.db e' ↔ Stored S L D.db e' ∨ e' = e := by
  have hnew : L.sequenceNumber e ∉ L.sequenceNumber '' {e' | Stored S L D.db e'} := by
    rintro ⟨e', he', hseq⟩
    have hget := get_of_stored hS he'
    rw [hseq, hfree] at hget
    exact absurd hget (by simp)
  obtain ⟨index', hins, hidx⟩ := insertEntryMapping_indexes h.index hnew
  have hmem := hS.mem_put_of_get_eq_none hfree (L.serializeToString e)
  have hstored : ∀ e', Stored S L (S.put D.db (indexToKey (L.sequenceNumber e))
      (L.serializeToString e)) e' ↔ Stored S L D.db e' ∨ e' = e := by
    intro e'
    rw [Stored, hmem, or_comm]
    exact or_congr_right ⟨fun heq => pairOf_injective hL heq, fun heq => heq ▸ rfl⟩
  refine ⟨⟨S.put D.db _ _, index'⟩, ?_, ⟨?_, ?_⟩, hstored⟩
  · rw [createSequencedEntry, hfree]
    dsimp only
    rw [hins]
    rfl
  · intro kv hkv
    rcases (hmem kv).mp hkv with rfl | hkv
    · exact ⟨e, rfl, hlow⟩
    · exact h.pairs kv hkv
  · have hset : {e' | Stored S L (S.put D.db (indexToKey (L.sequenceNumber e))
        (L.serializeToString e)) e'} = insert e {e' | Stored S L D.db e'} := by
      ext e'
      rw [Set.mem_ofPred_eq, hstored, or_comm]
      rfl
    rw [hset]
    exact hidx

omit hL in
/-- **A write whose key is taken changes nothing**, and is OK exactly if the same entry is stored. -/
theorem createSequencedEntry_taken {D : LeveldbDatabase σ} {e e' : E} (h : Stored S L D.db e)
    (hkey : indexToKey (L.sequenceNumber e') = indexToKey (L.sequenceNumber e)) :
    createSequencedEntry S L D e' =
      .ok (if L.serializeToString e = L.serializeToString e' then .ok
        else .sequenceNumberAlreadyInUse, D) := by
  rw [createSequencedEntry, hkey, get_of_stored hS h]
  dsimp only
  split <;> rfl

/-- **What one write does**: it stores the entry unless its key is taken. -/
theorem createSequencedEntry_sound (h : Sound S L low D) {e : E}
    (hlow : low ≤ (L.sequenceNumber e).toInt) :
    ∃ r D', createSequencedEntry S L D e = .ok (r, D') ∧ Sound S L low D' ∧
      ∀ e', Stored S L D'.db e' ↔ Stored S L D.db e' ∨
        e' = e ∧ S.get D.db (indexToKey (L.sequenceNumber e)) = none := by
  cases hget : S.get D.db (indexToKey (L.sequenceNumber e)) with
  | none =>
    obtain ⟨D', hcreate, hsound, hstored⟩ := createSequencedEntry_fresh hS hL h hlow hget
    exact ⟨_, D', hcreate, hsound, fun e' => by rw [hstored, and_iff_left rfl]⟩
  | some data =>
    obtain ⟨e₀, he₀, hkey, -, -⟩ := h.of_get hS hL hget
    exact ⟨_, D, createSequencedEntry_taken hS he₀ hkey, h, fun e' => by simp⟩

/-! ### Rebuilding -/

omit hS in
/-- The loop of `BuildIndex`, once the entries of `done` are in the structures. -/
theorem buildIndexLoop_indexes {it : List (Bytes × Bytes)} {index : Index} {done : Set E}
    (hidx : Indexes L index done) (hs : Sorted it)
    (hit : ∀ kv ∈ it, ∃ e, kv = pairOf L e ∧ 0 ≤ L.sequenceNumber e)
    (hnew : ∀ e ∈ done, ∀ kv ∈ it, kv.1 ≠ indexToKey (L.sequenceNumber e)) :
    ∃ index', buildIndexLoop L it index = .ok index' ∧
      Indexes L index' (done ∪ {e | pairOf L e ∈ it}) := by
  induction it generalizing index done with
  | nil => exact ⟨index, rfl, by simpa using hidx⟩
  | cons kv it ih =>
    obtain ⟨hhead, hrest⟩ := List.pairwise_cons.mp hs
    obtain ⟨e, rfl, he⟩ := hit kv List.mem_cons_self
    have hfresh : L.sequenceNumber e ∉ L.sequenceNumber '' done := by
      rintro ⟨e', he', hseq⟩
      exact hnew e' he' _ List.mem_cons_self (by rw [hseq, pairOf])
    obtain ⟨index₁, hins, hidx₁⟩ := insertEntryMapping_indexes hidx hfresh
    obtain ⟨index₂, hloop, hidx₂⟩ := ih hidx₁ hrest
      (fun kv hkv => hit kv (List.mem_cons_of_mem _ hkv)) (by
        rintro e' (rfl | he') kv hkv
        · exact (hhead kv hkv).ne'
        · exact hnew e' he' kv (List.mem_cons_of_mem _ hkv))
    refine ⟨index₂, ?_, ?_⟩
    · rw [pairOf, buildIndexLoop, if_pos (startsWith_indexToKey _),
        (keyToIndex_indexToKey_iff _).mpr he, Checks.ok_bind, parseEntry_serializeToString hL,
        Checks.ok_bind, check_of rfl, Checks.ok_bind, hins, Checks.ok_bind, hloop]
    · have hset : done ∪ {x | pairOf L x ∈ pairOf L e :: it} =
          insert e done ∪ {x | pairOf L x ∈ it} := by
        ext x
        simp only [Set.mem_union, Set.mem_ofPred_eq, List.mem_cons, Set.mem_insert_iff,
          (pairOf_injective hL).eq_iff]
        tauto
      rw [hset]
      exact hidx₂

/-- **A restart computes the structures anew**, and they are the same. -/
theorem buildIndex_eq (h : Sound S L 0 D) : buildIndex S L D.db = .ok D.index := by
  have hseek : ∀ e, pairOf L e ∈ S.seek D.db kEntryPrefix ↔ Stored S L D.db e := by
    intro e
    rw [hS.mem_seek]
    exact and_iff_left (not_lt.mp (List.IsPrefix.le (startsWith_indexToKey _)))
  have hit : ∀ kv ∈ S.seek D.db kEntryPrefix,
      ∃ e, kv = pairOf L e ∧ 0 ≤ L.sequenceNumber e := by
    intro kv hkv
    obtain ⟨e, rfl, he⟩ := h.pairs kv ((hS.mem_seek _ _ _).mp hkv).1
    exact ⟨e, rfl, toInt_nonneg_iff.mp he⟩
  have hsorted : Sorted (S.seek D.db kEntryPrefix) :=
    (hS.sorted D.db).sublist (seekTo_suffix _ _).sublist
  obtain ⟨index, hloop, hidx⟩ :=
    buildIndexLoop_indexes hL Indexes.nothing hsorted hit (by simp)
  have hset : ∅ ∪ {e | pairOf L e ∈ S.seek D.db kEntryPrefix} = {e | Stored S L D.db e} := by
    ext e
    rw [Set.empty_union]
    exact hseek e
  rw [hset] at hidx
  rw [buildIndex, hloop, hidx.unique h.index]

/-! ### Reading -/

theorem lookupByHash_ok (h : Sound S L low D) (hash : Bytes) (result : Bool) :
    ∃ r, lookupByHash S L D hash result = .ok r := by
  rw [lookupByHash]
  cases hid : D.index.idByHash hash with
  | none => exact ⟨_, rfl⟩
  | some i =>
    obtain ⟨⟨e, ⟨he, rfl⟩, rfl⟩, -⟩ := (h.index.leasts.eq_some_iff hash i).mp hid
    dsimp only
    rw [get_of_stored hS he]
    dsimp only
    rw [parseEntry_serializeToString hL, Checks.ok_bind, check_of rfl]
    cases result <;> exact ⟨_, rfl⟩

theorem lookupByIndex_ok (h : Sound S L low D) {i : Int64} (hi : 0 ≤ low ∧ 0 ≤ i ∨ 0 < low)
    (result : Bool) : ∃ r, lookupByIndex S L D i result = .ok r := by
  rw [lookupByIndex]
  cases hget : S.get D.db (indexToKey i) with
  | none => exact ⟨_, rfl⟩
  | some data =>
    obtain ⟨e, -, hkey, hparse, hlow⟩ := h.of_get hS hL hget
    have he : 0 ≤ L.sequenceNumber e := toInt_nonneg_iff.mp (by omega)
    have hseq : L.sequenceNumber e = i := by
      have hmax := indexToKey_injective hkey
      rw [max_eq_left he] at hmax
      rcases hi with ⟨-, hi⟩ | hpos
      · rw [← hmax, max_eq_left hi]
      · -- a positive number has the key of no other
        have he : 0 < L.sequenceNumber e := toInt_pos_iff.mp (by omega)
        rcases le_total i 0 with hi | hi
        · rw [max_eq_right hi] at hmax
          exact absurd hmax he.ne
        · rw [← hmax, max_eq_left hi]
    dsimp only
    rw [hparse, Checks.ok_bind, check_of hseq]
    cases result <;> exact ⟨_, rfl⟩

omit hS in
theorem getNextEntries_ok (n : ℕ) {it : List (Bytes × Bytes)}
    (hit : ∀ kv ∈ it, ∃ e, kv = pairOf L e ∧ 0 ≤ L.sequenceNumber e) :
    ∃ entries, getNextEntries L n it = .ok entries := by
  induction n generalizing it with
  | zero => exact ⟨_, rfl⟩
  | succ n ih =>
    cases it with
    | nil =>
      obtain ⟨entries, hrest⟩ := ih hit
      refine ⟨none :: entries, ?_⟩
      rw [getNextEntries, getNextEntry]
      simp only [Checks.ok_bind, Checks.pure_eq, hrest]
    | cons kv it =>
      obtain ⟨e, rfl, he⟩ := hit kv List.mem_cons_self
      obtain ⟨entries, hrest⟩ := ih fun kv hkv => hit kv (List.mem_cons_of_mem _ hkv)
      refine ⟨some e :: entries, ?_⟩
      rw [getNextEntries, pairOf, getNextEntry, if_pos (startsWith_indexToKey _),
        (keyToIndex_indexToKey_iff _).mpr he, Checks.ok_bind, parseEntry_serializeToString hL,
        Checks.ok_bind, check_of rfl]
      simp only [Checks.ok_bind, Checks.pure_eq, hrest]

/-! ### One request, and all of them -/

omit hS hL in
variable (L) in
/-- What may be asked for once all numbers are at least `low`. -/
def Request.Permitted (low : ℤ) : Request E → Prop
  | .createSequencedEntry logged => low ≤ (L.sequenceNumber logged).toInt
  | .lookupByHash _ _ => True
  | .lookupByIndex sequenceNumber _ => 0 ≤ low ∧ 0 ≤ sequenceNumber ∨ 0 < low
  | .scanEntries _ _ => 0 ≤ low
  | .reopen => 0 ≤ low

/-- **What one request does**: it passes every `CHECK`, and stores what it writes under a free key;
the others leave the database, even in memory, as it is. -/
theorem perform_sound (h : Sound S L low D) {r : Request E} (hr : r.Permitted L low) :
    ∃ response D', perform S L D r = .ok (response, D') ∧ Sound S L low D' ∧
      (r.written? = none → D' = D) ∧
      ∀ e, Stored S L D'.db e ↔ Stored S L D.db e ∨
        r.written? = some e ∧ S.get D.db (indexToKey (L.sequenceNumber e)) = none := by
  cases r with
  | createSequencedEntry logged =>
    obtain ⟨result, D', hcreate, hsound, hstored⟩ := createSequencedEntry_sound hS hL h hr
    refine ⟨.written result, D', by rw [perform, hcreate]; rfl, hsound, by simp [Request.written?],
      fun e => ?_⟩
    rw [hstored, Request.written?, Option.some_inj, eq_comm]
    exact or_congr_right (and_congr_right fun heq => by rw [heq])
  | lookupByHash hash result =>
    obtain ⟨found, hfound⟩ := lookupByHash_ok hS hL h hash result
    exact ⟨.lookedUp found, D, by rw [perform, hfound]; rfl, h, fun _ => rfl,
      by simp [Request.written?]⟩
  | lookupByIndex sequenceNumber result =>
    obtain ⟨found, hfound⟩ := lookupByIndex_ok hS hL h hr result
    exact ⟨.lookedUp found, D, by rw [perform, hfound]; rfl, h, fun _ => rfl,
      by simp [Request.written?]⟩
  | scanEntries startIndex calls =>
    have hit : ∀ kv ∈ scanEntries S D startIndex,
        ∃ e, kv = pairOf L e ∧ 0 ≤ L.sequenceNumber e := by
      intro kv hkv
      obtain ⟨e, rfl, he⟩ := (h.mono hr).pairs kv ((hS.mem_seek _ _ _).mp hkv).1
      exact ⟨e, rfl, toInt_nonneg_iff.mp he⟩
    obtain ⟨entries, hentries⟩ := getNextEntries_ok hL calls hit
    exact ⟨.scanned entries, D, by rw [perform, hentries]; rfl, h, fun _ => rfl,
      by simp [Request.written?]⟩
  | reopen =>
    have hbuild := buildIndex_eq hS hL (h.mono hr)
    exact ⟨.reopened, D, by rw [perform, openDatabase, hbuild]; rfl, h, fun _ => rfl,
      by simp [Request.written?]⟩

omit hL in
theorem get_eq_none_iff (h : Sound S L low D) (key : Bytes) :
    S.get D.db key = none ↔ ∀ e, Stored S L D.db e → indexToKey (L.sequenceNumber e) ≠ key := by
  rw [hS.get_eq_none]
  constructor
  · exact fun hfree e he => hfree _ he
  · intro hfree kv hkv
    obtain ⟨e, rfl, -⟩ := h.pairs kv hkv
    exact hfree e hkv

/-- The entries that a sequence of requests writes. -/
def written (requests : List (Request E)) : List E := requests.filterMap Request.written?

/-- The first of the entries with the key of `e`. -/
def firstFor (L : LoggedEntry E) (es : List E) (e : E) : Option E :=
  es.find? fun w => decide (indexToKey (L.sequenceNumber w) = indexToKey (L.sequenceNumber e))

omit hS hL in
theorem firstFor_cons (w : E) (es : List E) (e : E) :
    firstFor L (w :: es) e =
      if indexToKey (L.sequenceNumber w) = indexToKey (L.sequenceNumber e) then some w
      else firstFor L es e := by
  rw [firstFor, List.find?_cons]
  split_ifs with hkey
  · rw [decide_eq_true hkey]
  · rw [decide_eq_false hkey, firstFor]

omit hL in
/-- The keys that are free after a request. -/
theorem free_after {D' : LeveldbDatabase σ} (h : Sound S L low D) (h' : Sound S L low D')
    {r : Request E} (hstored : ∀ e, Stored S L D'.db e ↔ Stored S L D.db e ∨
      r.written? = some e ∧ S.get D.db (indexToKey (L.sequenceNumber e)) = none) (key : Bytes) :
    S.get D'.db key = none ↔
      S.get D.db key = none ∧ ∀ w, r.written? = some w → indexToKey (L.sequenceNumber w) ≠ key := by
  rw [get_eq_none_iff hS h']
  constructor
  · intro hfree
    have hbefore : S.get D.db key = none :=
      (get_eq_none_iff hS h key).mpr fun e he => hfree e ((hstored e).mpr (.inl he))
    refine ⟨hbefore, fun w hw hkey => ?_⟩
    exact hfree w ((hstored w).mpr (.inr ⟨hw, hkey ▸ hbefore⟩)) hkey
  · rintro ⟨hbefore, hother⟩ e he
    rcases (hstored e).mp he with he | ⟨hw, -⟩
    · exact (get_eq_none_iff hS h key).mp hbefore e he
    · exact hother e hw

/-- **What every run does**: no `CHECK` fails, and under a key that was free the first entry written
is stored. -/
theorem run_sound (h : Sound S L low D) {requests : List (Request E)}
    (hr : ∀ r ∈ requests, r.Permitted L low) :
    ∃ responses D', Runs.run (perform S L) D requests = .ok (responses, D') ∧ Sound S L low D' ∧
      ∀ e, Stored S L D'.db e ↔ Stored S L D.db e ∨
        S.get D.db (indexToKey (L.sequenceNumber e)) = none ∧
          firstFor L (written requests) e = some e := by
  induction requests generalizing D with
  | nil => exact ⟨[], D, rfl, h, fun e => by simp [written, firstFor]⟩
  | cons r requests ih =>
    obtain ⟨response, D₁, hperform, hsound₁, -, hstored₁⟩ :=
      perform_sound hS hL h (hr r List.mem_cons_self)
    obtain ⟨responses, D₂, hrun, hsound₂, hstored₂⟩ :=
      ih hsound₁ fun r hr' => hr r (List.mem_cons_of_mem _ hr')
    refine ⟨response :: responses, D₂, by rw [Runs.run_cons_ok hperform, hrun]; rfl, hsound₂,
      fun e => ?_⟩
    rw [hstored₂, hstored₁, free_after hS h hsound₁ hstored₁, or_assoc]
    refine or_congr_right ?_
    cases hw : r.written? with
    | none => simp [written, hw]
    | some w =>
      have hcons : written (r :: requests) = w :: written requests := by simp [written, hw]
      rw [hcons, firstFor_cons]
      split_ifs with hkey
      · -- `w` settles what stands under this key
        constructor
        · rintro (⟨hwe, hfree⟩ | ⟨⟨-, hother⟩, -⟩)
          · exact ⟨hfree, hwe⟩
          · exact absurd hkey (hother w rfl)
        · exact fun ⟨hfree, hwe⟩ => .inl ⟨hwe, hfree⟩
      · constructor
        · rintro (⟨hwe, -⟩ | ⟨⟨hfree, -⟩, hfirst⟩)
          · exact absurd (by rw [Option.some.inj hwe]) hkey
          · exact ⟨hfree, hfirst⟩
        · rintro ⟨hfree, hfirst⟩
          refine .inr ⟨⟨hfree, ?_⟩, hfirst⟩
          exact fun w' hw' => Option.some.inj hw' ▸ hkey

end Lawful

end LearnNetlib.Log
