import LearnNetlib.Log.DatabaseRuns
import Mathlib.Data.List.Find

/-!
# The log database from its first opening on

* `Exact` — what the structures in memory and the store say after certain writes;
* **`database_exact`** — with non-negative sequence numbers every run, restarts included, passes all
  `CHECK`s and ends in an exact state; the stored entries alone determine the structures;
* **`database_checks_iff`** — with arbitrary numbers, distinct numbers keep distinct keys and no later
  read or restart fails on a sequence number exactly if every number written is positive.
-/

namespace LearnNetlib.Log

open Foundations Frontier

variable {E σ : Type} {S : OrderedStore Bytes Bytes σ} {L : LoggedEntry E}

/-! ### Non-negative numbers -/

variable (S L) in
/-- The state a database must be in after the writes `es`. -/
structure Exact (D : LeveldbDatabase σ) (es : List E) : Prop where
  /-- Of the entries written under a number, the first is stored. -/
  stored : ∀ e, Stored S L D.db e ↔
    es.find? (fun w => decide (L.sequenceNumber w = L.sequenceNumber e)) = some e
  contiguousSize : IsLeast {n : ℤ | 0 ≤ n ∧ ∀ e, Stored S L D.db e → (L.sequenceNumber e).toInt ≠ n}
    D.index.contiguousSize
  /-- The counter does not outgrow `int64_t` before there are that many writes. -/
  contiguousSize_le : D.index.contiguousSize ≤ es.length
  sparseEntries_sorted : D.index.sparseEntries.Pairwise (· < ·)
  sparseEntries : ∀ i, i ∈ D.index.sparseEntries ↔
    (∃ e, Stored S L D.db e ∧ L.sequenceNumber e = i) ∧ D.index.contiguousSize < i.toInt
  idByHash : ∀ h i, D.index.idByHash h = some i ↔
    IsLeast {j | ∃ e, Stored S L D.db e ∧ L.hash e = h ∧ L.sequenceNumber e = j} i
  idByHash_none : ∀ h, D.index.idByHash h = none ↔ ∀ e, Stored S L D.db e → L.hash e ≠ h
  /-- A conflicting write is refused and changes nothing. -/
  conflict : ∀ e e', Stored S L D.db e → L.sequenceNumber e' = L.sequenceNumber e → e' ≠ e →
    createSequencedEntry S L D e' = .ok (.sequenceNumberAlreadyInUse, D)
  rebuilt : buildIndex S L D.db = .ok D.index

section Lawful

variable (hS : S.Lawful)
include hS

theorem sound_empty (low : ℤ) : Sound S L low ⟨S.empty, Index.empty⟩ where
  pairs kv hkv := by
    rw [hS.entries_empty] at hkv
    exact absurd hkv List.not_mem_nil
  index := by
    have hset : {e | Stored S L S.empty e} = ∅ := by
      ext e
      simp [Stored, hS.entries_empty]
    rw [hset]
    exact Indexes.nothing

/-- An empty store is opened. -/
theorem openDatabase_empty : openDatabase S L S.empty = .ok ⟨S.empty, Index.empty⟩ := by
  have hseek : S.seek S.empty kEntryPrefix = [] := by
    rw [OrderedStore.seek, hS.entries_empty, SortedCursor.seekTo_nil]
  rw [openDatabase, buildIndex, hseek]
  rfl

variable (hL : L.RoundTrips)
include hL

/-- The run theorem for a store that was empty. -/
theorem run_from_empty {low : ℤ} {requests : List (Request E)}
    (hr : ∀ r ∈ requests, r.Permitted L low) :
    ∃ responses D, Runs.run (perform S L) ⟨S.empty, Index.empty⟩ requests = .ok (responses, D) ∧
      Sound S L low D ∧
      ∀ e, Stored S L D.db e ↔ firstFor L (written requests) e = some e := by
  obtain ⟨responses, D, hrun, hsound, hstored⟩ := run_sound hS hL (sound_empty hS low) hr
  refine ⟨responses, D, hrun, hsound, fun e => ?_⟩
  rw [hstored, Stored, hS.entries_empty, or_iff_right List.not_mem_nil,
    and_iff_right (hS.get_empty _)]

omit hS hL in
/-- Among non-negative numbers, keys stand for numbers. -/
theorem firstFor_eq {es : List E} (hes : ∀ w ∈ es, 0 ≤ L.sequenceNumber w) {e : E}
    (he : 0 ≤ L.sequenceNumber e) :
    firstFor L es e = es.find? fun w => decide (L.sequenceNumber w = L.sequenceNumber e) := by
  apply List.find?_congr
  intro w hw
  refine decide_eq_decide.mpr ⟨fun hkey => ?_, fun hseq => by rw [hseq]⟩
  have hmax := indexToKey_injective hkey
  rwa [max_eq_left (hes w hw), max_eq_left he] at hmax

/-- The state after a run is exact. -/
theorem exact_of_sound {D : LeveldbDatabase σ} {es : List E} (h : Sound S L 0 D)
    (hes : ∀ w ∈ es, 0 ≤ L.sequenceNumber w)
    (hstored : ∀ e, Stored S L D.db e ↔ firstFor L es e = some e) : Exact S L D es where
  stored e := by
    rw [hstored]
    by_cases he : 0 ≤ L.sequenceNumber e
    · rw [firstFor_eq hes he]
    · -- nothing negative was written
      have hno : e ∉ es := fun hmem => he (hes e hmem)
      exact iff_of_false (fun hf => hno (List.mem_of_find?_eq_some hf))
        fun hf => hno (List.mem_of_find?_eq_some hf)
  contiguousSize := by
    have hleast := h.index.tracks.least
    rw [Missing] at hleast
    convert hleast using 2
    ext n
    simp
  contiguousSize_le := by
    have hle := h.index.tracks.le_card (es.map L.sequenceNumber) (by
      rintro _ ⟨e, he, rfl⟩
      exact List.mem_map_of_mem (List.mem_of_find?_eq_some ((hstored e).mp he)))
    rwa [List.length_map] at hle
  sparseEntries_sorted := h.index.tracks.sorted
  sparseEntries i := by
    rw [h.index.tracks.mem]
    refine and_congr_right ?_
    rintro ⟨e, he, rfl⟩
    have hnonneg := toInt_nonneg_iff.mpr (hes e (List.mem_of_find?_eq_some ((hstored e).mp he)))
    exact or_iff_right (by omega)
  idByHash k i := by
    have hset : L.sequenceNumber '' {e ∈ {e | Stored S L D.db e} | L.hash e = k} =
        {j | ∃ e, Stored S L D.db e ∧ L.hash e = k ∧ L.sequenceNumber e = j} := by
      ext j
      simp [and_assoc]
    rw [h.index.leasts.eq_some_iff, hset]
  idByHash_none k := by
    have hk := h.index.leasts k
    cases hid : D.index.idByHash k with
    | none =>
      rw [hid] at hk
      refine iff_of_true rfl fun e he hh => ?_
      exact Set.eq_empty_iff_forall_notMem.mp hk _ ⟨e, ⟨he, hh⟩, rfl⟩
    | some i =>
      rw [hid] at hk
      obtain ⟨⟨e, ⟨he, hh⟩, -⟩, -⟩ := hk
      exact iff_of_false (by simp) fun hno => hno e he hh
  conflict e e' he hseq hne := by
    have hdata : L.serializeToString e ≠ L.serializeToString e' := by
      intro heq
      exact hne (pairOf_injective hL (Prod.ext (by rw [pairOf, pairOf, hseq]) heq.symm))
    rw [createSequencedEntry_taken hS he (by rw [hseq]), if_neg hdata]
  rebuilt := buildIndex_eq hS hL h

/-- **The structures in memory, in every reachable state.**  From an empty store, whatever entries with
non-negative numbers are written, in any order, and however often the database is read and reopened in
between: no `CHECK` fails, the state is exact, and it is the same for all runs that store the same
entries. -/
theorem database_exact :
    openDatabase S L S.empty = .ok ⟨S.empty, Index.empty⟩ ∧
    (∀ requests : List (Request E), (∀ r ∈ requests, r.Permitted L 0) →
      ∃ responses D, Runs.run (perform S L) ⟨S.empty, Index.empty⟩ requests = .ok (responses, D) ∧
        Exact S L D (written requests)) ∧
    ∀ (requests requests' : List (Request E)) (responses responses' : List (Response E))
      (D D' : LeveldbDatabase σ),
      (∀ r ∈ requests, r.Permitted L 0) → (∀ r ∈ requests', r.Permitted L 0) →
      Runs.run (perform S L) ⟨S.empty, Index.empty⟩ requests = .ok (responses, D) →
      Runs.run (perform S L) ⟨S.empty, Index.empty⟩ requests' = .ok (responses', D') →
      (∀ e, Stored S L D.db e ↔ Stored S L D'.db e) → D.index = D'.index := by
  have hwritten : ∀ requests : List (Request E), (∀ r ∈ requests, r.Permitted L 0) →
      ∀ w ∈ written requests, 0 ≤ L.sequenceNumber w := by
    intro requests hr w hw
    obtain ⟨r, hmem, hrw⟩ := List.mem_filterMap.mp hw
    cases r with
    | createSequencedEntry logged =>
      obtain rfl := Option.some.inj hrw
      exact toInt_nonneg_iff.mp (hr _ hmem)
    | _ => cases hrw
  refine ⟨openDatabase_empty hS, fun requests hr => ?_, ?_⟩
  · obtain ⟨responses, D, hrun, hsound, hstored⟩ := run_from_empty hS hL hr
    exact ⟨responses, D, hrun, exact_of_sound hS hL hsound (hwritten requests hr) hstored⟩
  · intro requests requests' responses responses' D D' hr hr' hrun hrun' hsame
    obtain ⟨_, D₁, hrun₁, hsound, -⟩ := run_from_empty hS hL hr
    obtain ⟨_, D₂, hrun₂, hsound', -⟩ := run_from_empty hS hL hr'
    rw [hrun, Except.ok.injEq, Prod.mk.injEq] at hrun₁
    rw [hrun', Except.ok.injEq, Prod.mk.injEq] at hrun₂
    obtain ⟨-, rfl⟩ := hrun₁
    obtain ⟨-, rfl⟩ := hrun₂
    have hset : {e | Stored S L D.db e} = {e | Stored S L D'.db e} := Set.ext hsame
    exact (hset ▸ hsound.index).unique hsound'.index

/-! ### Arbitrary numbers -/

omit hL in
/-- Where a number that is not positive is stored, a lookup of another such number fails. -/
theorem lookupByIndex_fails (hL : L.RoundTrips) {D : LeveldbDatabase σ} {e : E}
    (h : Stored S L D.db e) (he : L.sequenceNumber e ≤ 0) {i : Int64} (hi : i ≤ 0)
    (hne : L.sequenceNumber e ≠ i) : lookupByIndex S L D i true = .error .sequenceNumber := by
  have hget := get_of_stored hS h
  rw [indexToKey_of_nonpos he] at hget
  rw [lookupByIndex, indexToKey_of_nonpos hi, hget]
  dsimp only
  rw [if_pos rfl, parseEntry_serializeToString hL, Checks.ok_bind, check_of_not hne]
  rfl

omit hS hL in
/-- A number that is not positive leaves an entry with such a number behind. -/
theorem exists_stored_nonpos {D : LeveldbDatabase σ} {es : List E}
    (hstored : ∀ e, Stored S L D.db e ↔ firstFor L es e = some e) {e : E} (he : e ∈ es)
    (hnonpos : L.sequenceNumber e ≤ 0) :
    ∃ e', Stored S L D.db e' ∧ L.sequenceNumber e' ≤ 0 := by
  have hsome : (firstFor L es e).isSome := List.find?_isSome.mpr ⟨e, he, by simp⟩
  obtain ⟨e', hfirst⟩ := Option.isSome_iff_exists.mp hsome
  have hkey : indexToKey (L.sequenceNumber e') = indexToKey (L.sequenceNumber e) := by
    simpa using List.find?_some hfirst
  refine ⟨e', (hstored e').mpr ?_, ?_⟩
  · rw [firstFor, hkey]
    exact hfirst
  · have hmax := indexToKey_injective hkey
    rw [max_eq_right hnonpos] at hmax
    exact hmax ▸ le_max_left _ _

omit hL in
/-- Where a number that is not positive is stored, some read fails on it. -/
theorem exists_read_fails (hL : L.RoundTrips) {D : LeveldbDatabase σ} {e : E} (h : Stored S L D.db e)
    (he : L.sequenceNumber e ≤ 0) : ∃ later : List (Request E), (∀ r ∈ later, r.written? = none) ∧
      Runs.run (perform S L) D later = .error .sequenceNumber := by
  obtain ⟨i, hi, hne⟩ : ∃ i : Int64, i ≤ 0 ∧ L.sequenceNumber e ≠ i := by
    by_cases h0 : L.sequenceNumber e = 0
    · exact ⟨-1, by decide, by rw [h0]; decide⟩
    · exact ⟨0, le_rfl, h0⟩
  refine ⟨[.lookupByIndex i true], by simp [Request.written?], ?_⟩
  rw [Runs.run, perform, lookupByIndex_fails hS hL h he hi hne]
  rfl

/-- Where all numbers stored are positive, no read and no restart fails on one. -/
theorem reads_succeed {D : LeveldbDatabase σ} (hsound : Sound S L 1 D) {later : List (Request E)}
    (hlater : ∀ r ∈ later, r.written? = none) :
    Runs.run (perform S L) D later ≠ .error .sequenceNumber := by
  have hreads : ∀ r ∈ later, r.Permitted L 1 := by
    intro r hr
    have hread := hlater r hr
    cases r with
    | createSequencedEntry logged => cases hread
    | lookupByHash hash result => trivial
    | lookupByIndex i result => exact .inr one_pos
    | scanEntries start n => exact zero_le_one
    | reopen => exact zero_le_one
  obtain ⟨_, D', hrun, -⟩ := run_sound hS hL hsound hreads
  rw [hrun]
  intro h
  cases h

/-- **When the checks of sequence numbers hold.**  After arbitrary writes, distinct numbers have
distinct keys and no later sequence of reads and restarts fails on a sequence number exactly if every
number written is positive.  Runs that write positive numbers pass every `CHECK`; so do runs that write
non-negative ones and look up no negative number; and the codec inverts on non-negative numbers only. -/
theorem database_checks_iff :
    openDatabase S L S.empty = .ok ⟨S.empty, Index.empty⟩ ∧
    (∀ calls : List E, ∃ responses D,
      Runs.run (perform S L) ⟨S.empty, Index.empty⟩ (calls.map .createSequencedEntry)
        = .ok (responses, D) ∧
      (((∀ e ∈ calls, ∀ e' ∈ calls, L.sequenceNumber e ≠ L.sequenceNumber e' →
            indexToKey (L.sequenceNumber e) ≠ indexToKey (L.sequenceNumber e')) ∧
          ∀ later : List (Request E), (∀ r ∈ later, r.written? = none) →
            Runs.run (perform S L) D later ≠ .error .sequenceNumber) ↔
        ∀ e ∈ calls, 0 < L.sequenceNumber e)) ∧
    (∀ low : ℤ, 0 ≤ low → ∀ requests : List (Request E), (∀ r ∈ requests, r.Permitted L low) →
      ∃ responses D,
        Runs.run (perform S L) ⟨S.empty, Index.empty⟩ requests = .ok (responses, D)) ∧
    ∀ i, keyToIndex (indexToKey i) = .ok i ↔ 0 ≤ i := by
  refine ⟨openDatabase_empty hS, fun calls => ?_, fun low _ requests hr => ?_,
    keyToIndex_indexToKey_iff⟩
  · have hpermitted : ∀ low : ℤ, (∀ e ∈ calls, low ≤ (L.sequenceNumber e).toInt) →
        ∀ r ∈ calls.map Request.createSequencedEntry, r.Permitted L low := by
      intro low hlow r hr
      obtain ⟨e, he, rfl⟩ := List.mem_map.mp hr
      exact hlow e he
    have hwritten : written (calls.map Request.createSequencedEntry) = calls := by
      simp [written, List.filterMap_map, Function.comp_def, Request.written?]
    obtain ⟨responses, D, hrun, -, hstored⟩ :=
      run_from_empty hS hL (hpermitted (-2 ^ 63) fun e _ => (L.sequenceNumber e).le_toInt)
    rw [hwritten] at hstored
    refine ⟨responses, D, hrun, ⟨?_, fun hpos => ⟨?_, ?_⟩⟩⟩
    · -- a number that is not positive makes some lookup fail
      rintro ⟨-, hreads⟩
      by_contra hno
      push Not at hno
      obtain ⟨e, he, hnonpos⟩ := hno
      obtain ⟨e', he', hnonpos'⟩ := exists_stored_nonpos hstored he hnonpos
      obtain ⟨later, hlater, hfails⟩ := exists_read_fails hS hL he' hnonpos'
      exact hreads later hlater hfails
    · intro e he e' he' hne hkey
      have hmax := indexToKey_injective hkey
      rw [max_eq_left (hpos e he).le, max_eq_left (hpos e' he').le] at hmax
      exact hne hmax
    · intro later hlater
      obtain ⟨_, D₁, hrun₁, hsound, -⟩ :=
        run_from_empty hS hL (hpermitted 1 fun e he => toInt_pos_iff.mpr (hpos e he))
      rw [hrun, Except.ok.injEq, Prod.mk.injEq] at hrun₁
      obtain ⟨-, rfl⟩ := hrun₁
      exact reads_succeed hS hL hsound hlater
  · obtain ⟨responses, D, hrun, -⟩ := run_from_empty hS hL hr
    exact ⟨responses, D, hrun⟩

end Lawful

/-! ### A concrete database -/

/-- Entries kept as their own serialization: eight bytes of sequence number, and the hash. -/
def rawEntry : LoggedEntry Bytes where
  sequenceNumber data := (data.take 8).foldl appendByte 0
  hash data := data.drop 8
  serializeToString := id
  parseFromString := some

theorem rawEntry_roundTrips : rawEntry.RoundTrips := fun _ => rfl

/-- The store of its entries. -/
abbrev rawStore := OrderedStore.sortedList Bytes Bytes

theorem database_exact_small :
    ∃ responses D, Runs.run (perform rawStore rawEntry) ⟨rawStore.empty, Index.empty⟩
        [.createSequencedEntry [0, 0, 0, 0, 0, 0, 0, 2, 7],
          .createSequencedEntry [0, 0, 0, 0, 0, 0, 0, 0, 7],
          .createSequencedEntry [0, 0, 0, 0, 0, 0, 0, 2, 8], .reopen] = .ok (responses, D) ∧
      Exact rawStore rawEntry D [[0, 0, 0, 0, 0, 0, 0, 2, 7], [0, 0, 0, 0, 0, 0, 0, 0, 7],
        [0, 0, 0, 0, 0, 0, 0, 2, 8]] :=
  (database_exact OrderedStore.sortedList_lawful rawEntry_roundTrips).2.1 _ (by
    simp only [List.mem_cons, List.not_mem_nil, or_false, forall_eq_or_imp, forall_eq,
      Request.Permitted]
    decide +kernel)

theorem database_checks_iff_small :
    ∃ responses D, Runs.run (perform rawStore rawEntry) ⟨rawStore.empty, Index.empty⟩
        [.createSequencedEntry [0, 0, 0, 0, 0, 0, 0, 3, 7],
          .createSequencedEntry [0, 0, 0, 0, 0, 0, 0, 1, 7]] = .ok (responses, D) ∧
      ∀ later : List (Request Bytes), (∀ r ∈ later, r.written? = none) →
        Runs.run (perform rawStore rawEntry) D later ≠ .error .sequenceNumber := by
  obtain ⟨responses, D, hrun, hiff⟩ :=
    (database_checks_iff OrderedStore.sortedList_lawful rawEntry_roundTrips).2.1
      [[0, 0, 0, 0, 0, 0, 0, 3, 7], [0, 0, 0, 0, 0, 0, 0, 1, 7]]
  exact ⟨responses, D, hrun, (hiff.mpr (by decide +kernel)).2⟩

/-- The number -1 is written under the key of 0, and the database does not open again. -/
theorem database_negative_number :
    ∃ responses D, Runs.run (perform rawStore rawEntry) ⟨rawStore.empty, Index.empty⟩
        [.createSequencedEntry [255, 255, 255, 255, 255, 255, 255, 255, 7]] = .ok (responses, D) ∧
      openDatabase rawStore rawEntry D.db = .error .sequenceNumber :=
  ⟨_, _, rfl, rfl⟩

end LearnNetlib.Log
