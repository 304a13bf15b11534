import LearnNetlib.Log.Database

/-!
# Scans of the log database

* `exists_entries` — what an iterator has in front of it is entries, and then keys without the prefix;
* `getNextEntries_eq` — the calls of `GetNextEntry` on it;
* `ScansFrom` — the iterator returns the entries from a number on;
* **`scanEntries_exact`** — every iterator does, over every store of entries with non-negative numbers,
  because the keys are in the order of the numbers and are read back as them.
-/

namespace LearnNetlib.Log

open Foundations SortedCursor

variable {E σ : Type} {S : OrderedStore Bytes Bytes σ} {L : LoggedEntry E}

variable (S L) in
/-- All that is stored under the prefix is entries with non-negative numbers. -/
def HoldsEntries (db : σ) : Prop :=
  ∀ kv ∈ S.entries db, kEntryPrefix <+: kv.1 → ∃ e, kv = pairOf L e ∧ 0 ≤ L.sequenceNumber e

/-- **Entries, and then none.** -/
theorem exists_entries {it : List (Bytes × Bytes)} (hsorted : Sorted it) {i : Int64}
    (hlow : ∀ kv ∈ it, indexToKey i ≤ kv.1)
    (hit : ∀ kv ∈ it, kEntryPrefix <+: kv.1 → ∃ e, kv = pairOf L e ∧ 0 ≤ L.sequenceNumber e) :
    ∃ (es : List E) (rest : List (Bytes × Bytes)), it = es.map (pairOf L) ++ rest ∧
      (∀ e ∈ es, 0 ≤ L.sequenceNumber e) ∧ ∀ kv ∈ rest, ¬ kEntryPrefix <+: kv.1 := by
  induction it with
  | nil => exact ⟨[], [], rfl, by simp, by simp⟩
  | cons kv it ih =>
    obtain ⟨hkv, htail⟩ := List.pairwise_cons.mp hsorted
    by_cases hkey : kEntryPrefix <+: kv.1
    · obtain ⟨e, rfl, he⟩ := hit kv List.mem_cons_self hkey
      obtain ⟨es, rest, rfl, hes, hrest⟩ :=
        ih htail (fun kv h => hlow kv (List.mem_cons_of_mem _ h))
          fun kv h => hit kv (List.mem_cons_of_mem _ h)
      exact ⟨e :: es, rest, rfl, List.forall_mem_cons.mpr ⟨he, hes⟩, hrest⟩
    · -- a later key with the prefix would force it on this one
      refine ⟨[], kv :: it, rfl, by simp, List.forall_mem_cons.mpr ⟨hkey, fun kv' h hlater => ?_⟩⟩
      exact hkey (OrderedStore.isPrefix_of_le_of_le (startsWith_indexToKey i) hlater
        (hlow kv List.mem_cons_self) (hkv kv' h).le)

/-- A key without the prefix ends the iteration. -/
theorem getNextEntries_past (n : ℕ) {rest : List (Bytes × Bytes)}
    (hrest : ∀ kv ∈ rest, ¬ kEntryPrefix <+: kv.1) :
    getNextEntries L n rest = .ok (List.replicate n none) := by
  induction n with
  | zero => rfl
  | succ n ih =>
    have hnext : getNextEntry L rest = .ok (none, rest) := by
      cases rest with
      | nil => rfl
      | cons kv rest => rw [getNextEntry, if_neg (hrest kv List.mem_cons_self)]
    rw [getNextEntries, hnext]
    simp only [Checks.ok_bind, Checks.pure_eq, ih, List.replicate_succ]

/-- **One entry a call**, and none after the last. -/
theorem getNextEntries_eq (hL : L.RoundTrips) (n : ℕ) {es : List E} {rest : List (Bytes × Bytes)}
    (hes : ∀ e ∈ es, 0 ≤ L.sequenceNumber e) (hrest : ∀ kv ∈ rest, ¬ kEntryPrefix <+: kv.1) :
    getNextEntries L n (es.map (pairOf L) ++ rest)
      = .ok ((es.take n).map some ++ List.replicate (n - es.length) none) := by
  induction es generalizing n with
  | nil =>
    rw [List.map_nil, List.nil_append, getNextEntries_past n hrest, List.take_nil, List.map_nil,
      List.nil_append, List.length_nil, Nat.sub_zero]
  | cons e es ih =>
    obtain ⟨he, hes⟩ := List.forall_mem_cons.mp hes
    cases n with
    | zero => simp [getNextEntries]
    | succ n =>
      have hnext : getNextEntry L (pairOf L e :: (es.map (pairOf L) ++ rest))
          = .ok (some e, es.map (pairOf L) ++ rest) := by
        rw [pairOf, getNextEntry, if_pos (startsWith_indexToKey _),
          (keyToIndex_indexToKey_iff _).mpr he, Checks.ok_bind, parseEntry_serializeToString hL,
          Checks.ok_bind, check_of rfl]
        rfl
      rw [List.map_cons, List.cons_append, getNextEntries, hnext]
      simp only [Checks.ok_bind, Checks.pure_eq, ih n hes, List.take_succ_cons, List.map_cons,
        List.cons_append, List.length_cons, Nat.add_sub_add_right]

variable (S L) in
/-- The iterator of `ScanEntries(start)` returns the entries from `start` on, each once and in the
order of their numbers, and then none. -/
def ScansFrom (D : LeveldbDatabase σ) (start : Int64) : Prop :=
  ∃ es : List E, es.Pairwise (fun e e' => L.sequenceNumber e < L.sequenceNumber e') ∧
    (∀ e, e ∈ es ↔ Stored S L D.db e ∧ max start 0 ≤ L.sequenceNumber e) ∧
    ∀ n, getNextEntries L n (scanEntries S D start)
      = .ok ((es.take n).map some ++ List.replicate (n - es.length) none)

section Lawful

variable (hS : S.Lawful) (hL : L.RoundTrips)
include hS hL

theorem scansFrom_of_holdsEntries {D : LeveldbDatabase σ} (h : HoldsEntries S L D.db)
    (start : Int64) : ScansFrom S L D start := by
  have hmem := hS.mem_seek D.db (indexToKey start)
  have hsorted : Sorted (scanEntries S D start) :=
    (hS.sorted D.db).sublist (seekTo_suffix _ _).sublist
  obtain ⟨es, rest, hit, hes, hrest⟩ :=
    exists_entries hsorted (fun kv hkv => ((hmem kv).mp hkv).2)
      fun kv hkv => h kv ((hmem kv).mp hkv).1
  refine ⟨es, ?_, fun e => ?_, fun n => by rw [hit, getNextEntries_eq hL n hes hrest]⟩
  · rw [hit, sorted_append_iff] at hsorted
    refine (List.pairwise_map.mp hsorted.1).imp_of_mem fun {e e'} he he' hkey => ?_
    by_contra hle
    have hkey' := indexToKey_le_iff (hes e he) |>.mpr (max_le (not_lt.mp hle) (hes e he))
    exact absurd hkey (not_lt.mpr hkey')
  · have hscan : pairOf L e ∈ scanEntries S D start
        ↔ Stored S L D.db e ∧ indexToKey start ≤ indexToKey (L.sequenceNumber e) := hmem _
    constructor
    · intro he
      rw [hit] at hscan
      obtain ⟨hstored, hle⟩ := hscan.mp (List.mem_append_left _ (List.mem_map_of_mem he))
      exact ⟨hstored, (indexToKey_le_iff (hes e he)).mp hle⟩
    · rintro ⟨hstored, hle⟩
      have hin := hscan.mpr
        ⟨hstored, (indexToKey_le_iff ((le_max_right start 0).trans hle)).mpr hle⟩
      rw [hit] at hin
      rcases List.mem_append.mp hin with hin | hin
      · obtain ⟨e', he', heq⟩ := List.mem_map.mp hin
        rwa [← pairOf_injective hL heq]
      · exact absurd (startsWith_indexToKey _) (hrest _ hin)

omit hS hL in
theorem Sound.holdsEntries {D : LeveldbDatabase σ} (h : Sound S L 0 D) : HoldsEntries S L D.db := by
  intro kv hkv _
  obtain ⟨e, rfl, he⟩ := h.pairs kv hkv
  exact ⟨e, rfl, toInt_nonneg_iff.mp he⟩

/-- **Scans are exact.**  Keys of non-negative numbers are in the order of the numbers and are read back
as them; so over every store that holds entries with non-negative numbers, and in particular after
every run that writes such entries, the iterator of `ScanEntries(start)` returns exactly the entries
with numbers from `max start 0` on, each once and in increasing order. -/
theorem scanEntries_exact :
    (∀ i j : Int64, 0 ≤ i → i < j → indexToKey i < indexToKey j) ∧
    (∀ i, 0 ≤ i → keyToIndex (indexToKey i) = .ok i) ∧
    (∀ D : LeveldbDatabase σ, HoldsEntries S L D.db → ∀ start, ScansFrom S L D start) ∧
    ∀ requests : List (Request E), (∀ r ∈ requests, r.Permitted L 0) →
      ∃ responses D, Runs.run (perform S L) ⟨S.empty, Index.empty⟩ requests = .ok (responses, D) ∧
        ∀ start, ScansFrom S L D start := by
  refine ⟨fun i j hi h => indexToKey_lt hi h, fun i hi => (keyToIndex_indexToKey_iff i).mpr hi,
    fun D h => scansFrom_of_holdsEntries hS hL h, fun requests hr => ?_⟩
  obtain ⟨responses, D, hrun, hsound, -⟩ := run_from_empty hS hL hr
  exact ⟨responses, D, hrun, scansFrom_of_holdsEntries hS hL hsound.holdsEntries⟩

end Lawful

/-- Two entries, and a key of somebody else. -/
theorem scanEntries_exact_two :
    ScansFrom rawStore rawEntry
      ⟨⟨[(indexToKey 1, [0, 0, 0, 0, 0, 0, 0, 1, 7]), (indexToKey 300, [0, 0, 0, 0, 0, 0, 1, 44, 7]),
        (['z'.toUInt8], [])], by unfold Sorted; decide +kernel⟩, Index.empty⟩ (-5) := by
  refine (scanEntries_exact OrderedStore.sortedList_lawful rawEntry_roundTrips).2.2.1 _ ?_ (-5)
  intro kv hkv hkey
  simp only [OrderedStore.sortedList, List.mem_cons, List.not_mem_nil, or_false] at hkv
  rcases hkv with rfl | rfl | rfl
  · exact ⟨[0, 0, 0, 0, 0, 0, 0, 1, 7], by decide +kernel, by decide +kernel⟩
  · exact ⟨[0, 0, 0, 0, 0, 0, 1, 44, 7], by decide +kernel, by decide +kernel⟩
  · exact absurd hkey (by decide)

end LearnNetlib.Log
