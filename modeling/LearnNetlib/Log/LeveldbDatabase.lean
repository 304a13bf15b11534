import LearnNetlib.Log.Keys
import LearnNetlib.Foundations.Frontier
import LearnNetlib.Foundations.OrderedStore
import LearnNetlib.Foundations.Runs

/-!
# `LeveldbDatabase`

The log database of `log/leveldb_database.cc`, over an ordered store in leveldb's place.

* `LoggedEntry` — what the database uses of an entry; the class is a placeholder in the repository, so
  it is a parameter, and `LoggedEntry.RoundTrips` says that serialization loses nothing;
* `Index`, `insertEntryMapping` — the structures in memory and the one function that changes them;
* `buildIndex`, `openDatabase`, `createSequencedEntry`, `lookupByHash`, `lookupByIndex`,
  `scanEntries`, `getNextEntry` — the member functions;
* `Request`, `perform` — the database as a state machine, restarts included.
-/

namespace LearnNetlib.Log

open Foundations

/-! ### Entries and results -/

/-- `LoggedEntry`. -/
structure LoggedEntry (E : Type) where
  sequenceNumber : E → Int64
  hash : E → Bytes
  serializeToString : E → Bytes
  parseFromString : Bytes → Option E

/-- Parsing inverts serializing. -/
def LoggedEntry.RoundTrips {E : Type} (L : LoggedEntry E) : Prop :=
  ∀ e, L.parseFromString (L.serializeToString e) = some e

/-- `Database::LookupResult`. -/
inductive LookupResult
  | lookupOk
  | notFound
  deriving Repr, DecidableEq

/-- `Database::WriteResult`. -/
inductive WriteResult
  | ok
  | missingChargeHash
  | duplicateChargeHas
  | entryNotFound
  | sequenceNumberAlreadyInUse
  deriving Repr, DecidableEq

/-! ### The structures in memory -/

/-- `contiguous_size_`, `id_by_hash_` and `sparse_entries_`, a `std::set` in its order. -/
structure Index where
  contiguousSize : ℤ
  idByHash : Bytes → Option Int64
  sparseEntries : List Int64

def Index.empty : Index := ⟨0, fun _ => none, []⟩

/-- `InsertEntryMapping`. -/
def insertEntryMapping (index : Index) (sequenceNumber : Int64) (hash : Bytes) : Checks Index :=
  let idByHash :=
    Function.update index.idByHash hash
      (some ((index.idByHash hash).elim sequenceNumber fun id => min id sequenceNumber))
  if sequenceNumber.toInt = index.contiguousSize then
    let contiguousSize := index.contiguousSize + 1
    -- `sparse_entries_.find(contiguous_size_)` splits the set where the iterator stands
    let before := index.sparseEntries.takeWhile fun i => decide (i.toInt ≠ contiguousSize)
    let it := index.sparseEntries.dropWhile fun i => decide (i.toInt ≠ contiguousSize)
    let drained := Frontier.drain Int64.toInt contiguousSize it
    .ok ⟨drained.1, idByHash, before ++ drained.2⟩
  else do
    check .alreadyAssigned (sequenceNumber ∉ index.sparseEntries)
    return ⟨index.contiguousSize, idByHash,
      index.sparseEntries.orderedInsert (· ≤ ·) sequenceNumber⟩

/-! ### The database -/

/-- `LeveldbDatabase`: `db_` and the structures in memory. -/
structure LeveldbDatabase (σ : Type) where
  db : σ
  index : Index

variable {E σ : Type} (S : OrderedStore Bytes Bytes σ) (L : LoggedEntry E)

/-- `CHECK(entry->ParseFromString(data))`. -/
def parseEntry (data : Bytes) : Checks E :=
  match L.parseFromString data with
  | some e => .ok e
  | none => .error .parseFromString

/-- The loop of `BuildIndex`, over what the iterator has in front of it. -/
def buildIndexLoop : List (Bytes × Bytes) → Index → Checks Index
  | [], index => .ok index
  | (key, value) :: it, index =>
    if kEntryPrefix <+: key then do
      let seq ← keyToIndex key
      let logged ← parseEntry L value
      check .sequenceNumber (L.sequenceNumber logged = seq)
      let index ← insertEntryMapping index (L.sequenceNumber logged) (L.hash logged)
      buildIndexLoop it index
    else .ok index

/-- `BuildIndex`. -/
def buildIndex (db : σ) : Checks Index := buildIndexLoop L (S.seek db kEntryPrefix) Index.empty

/-- `LeveldbDatabase::LeveldbDatabase`, on what is on disk. -/
def openDatabase (db : σ) : Checks (LeveldbDatabase σ) := do
  let index ← buildIndex S L db
  return ⟨db, index⟩

/-- `CreateSequencedEntry`. -/
def createSequencedEntry (D : LeveldbDatabase σ) (logged : E) :
    Checks (WriteResult × LeveldbDatabase σ) :=
  let data := L.serializeToString logged
  let key := indexToKey (L.sequenceNumber logged)
  match S.get D.db key with
  | none => do
    let index ← insertEntryMapping D.index (L.sequenceNumber logged) (L.hash logged)
    return (.ok, ⟨S.put D.db key data, index⟩)
  | some existingData =>
    if existingData = data then .ok (.ok, D) else .ok (.sequenceNumberAlreadyInUse, D)

/-- `LookupByHash`; `result` says whether the caller passes a place for the entry. -/
def lookupByHash (D : LeveldbDatabase σ) (hash : Bytes) (result : Bool) :
    Checks (LookupResult × Option E) :=
  match D.index.idByHash hash with
  | none => .ok (.notFound, none)
  | some i =>
    match S.get D.db (indexToKey i) with
    | none => .ok (.notFound, none)
    | some data =>
      if result then do
        let e ← parseEntry L data
        check .hash (L.hash e = hash)
        return (.lookupOk, some e)
      else .ok (.lookupOk, none)

/-- `LookupByIndex`. -/
def lookupByIndex (D : LeveldbDatabase σ) (sequenceNumber : Int64) (result : Bool) :
    Checks (LookupResult × Option E) :=
  match S.get D.db (indexToKey sequenceNumber) with
  | none => .ok (.notFound, none)
  | some data =>
    if result then do
      let e ← parseEntry L data
      check .sequenceNumber (L.sequenceNumber e = sequenceNumber)
      return (.lookupOk, some e)
    else .ok (.lookupOk, none)

/-- `ScanEntries`: the iterator sees the store as it is now, and is what it has in front of it. -/
def scanEntries (D : LeveldbDatabase σ) (startIndex : Int64) : List (Bytes × Bytes) :=
  S.seek D.db (indexToKey startIndex)

/-- `Iterator::GetNextEntry`. -/
def getNextEntry : List (Bytes × Bytes) → Checks (Option E × List (Bytes × Bytes))
  | [] => .ok (none, [])
  | (key, value) :: it =>
    if kEntryPrefix <+: key then do
      let seq ← keyToIndex key
      let entry ← parseEntry L value
      check .sequenceNumber (L.sequenceNumber entry = seq)
      return (some entry, it)
    else .ok (none, (key, value) :: it)

/-- `n` calls of `GetNextEntry`. -/
def getNextEntries : ℕ → List (Bytes × Bytes) → Checks (List (Option E))
  | 0, _ => .ok []
  | n + 1, it => do
    let (entry, it) ← getNextEntry L it
    let entries ← getNextEntries n it
    return entry :: entries

/-! ### The state machine -/

/-- What users do with a database. -/
inductive Request (E : Type)
  | createSequencedEntry (logged : E)
  | lookupByHash (hash : Bytes) (result : Bool)
  | lookupByIndex (sequenceNumber : Int64) (result : Bool)
  /-- `ScanEntries`, and so many calls of `GetNextEntry`. -/
  | scanEntries (startIndex : Int64) (calls : ℕ)
  /-- The process ends and another opens the database. -/
  | reopen

inductive Response (E : Type)
  | written (result : WriteResult)
  | lookedUp (result : LookupResult × Option E)
  | scanned (entries : List (Option E))
  | reopened

/-- One request. -/
def perform (D : LeveldbDatabase σ) : Request E → Checks (Response E × LeveldbDatabase σ)
  | .createSequencedEntry logged => do
    let (result, D) ← createSequencedEntry S L D logged
    return (.written result, D)
  | .lookupByHash hash result => do
    let found ← lookupByHash S L D hash result
    return (.lookedUp found, D)
  | .lookupByIndex sequenceNumber result => do
    let found ← lookupByIndex S L D sequenceNumber result
    return (.lookedUp found, D)
  | .scanEntries startIndex calls => do
    let entries ← getNextEntries L calls (scanEntries S D startIndex)
    return (.scanned entries, D)
  | .reopen => do
    let D ← openDatabase S L D.db
    return (.reopened, D)

/-- The entry a request writes. -/
def Request.written? : Request E → Option E
  | .createSequencedEntry logged => some logged
  | _ => none

end LearnNetlib.Log
