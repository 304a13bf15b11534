import LearnNetlib.Foundations.Loops
import LearnNetlib.Table.Iterator

/-!
# The two-level iterator

`base/io/table/two_level_iterator.cc`: an index iterator whose values are handed to `block_function`,
and an iterator over the block that comes back.

* `TwoLevelIterator` — the fields and every function;
* `Blocks` — what is asked of the parts: the index is a cursor over handles, and every block is a
  cursor over its entries with a status of its own;
* `Stands` — the invariant: where the index and the data iterator stand, and that the error of every
  block passed is reported;
* **`twoLevel_refines`** — over every run the iterator shows the entries that a cursor over all blocks
  shows, and a status once bad stays bad;
* **`twoLevel_scan`** — from every state reached a scan delivers all entries, and the status is bad at
  its end exactly when some block's is.
-/

namespace LearnNetlib.Table

open Loops Runs SortedCursor

/-- The fields of `TwoLevelIterator`. -/
structure TwoLevelIterator (ι δ : Type) where
  status : Status
  indexIter : ι
  dataIter : Option δ -- May be NULL
  dataBlockHandle : Bytes
  deriving Repr, DecidableEq

namespace TwoLevelIterator

variable {ι δ : Type}

/-- The constructor. -/
def new (indexIter : ι) : TwoLevelIterator ι δ := ⟨.ok, indexIter, none, []⟩

/-- `SaveError`. -/
def saveError (it : TwoLevelIterator ι δ) (s : Status) : TwoLevelIterator ι δ :=
  if it.status.isOk ∧ ¬ s.isOk then { it with status := s } else it

variable (index : IteratorOps ι) (data : IteratorOps δ) (blockFunction : Bytes → Access δ)

/-- `Valid`. -/
def valid (it : TwoLevelIterator ι δ) : Bool :=
  match it.dataIter with
  | none => false
  | some d => data.valid d

/-- `key`. -/
def key (it : TwoLevelIterator ι δ) : Bytes :=
  match it.dataIter with
  | none => []
  | some d => data.key d

/-- `value`. -/
def value (it : TwoLevelIterator ι δ) : Access Bytes :=
  match it.dataIter with
  | none => .error .assertFailed
  | some d => if data.valid d then data.value d else .error .assertFailed

/-- `status`. -/
def statusOf (it : TwoLevelIterator ι δ) : Status :=
  if ¬ (index.status it.indexIter).isOk then index.status it.indexIter
  else
    match it.dataIter with
    | some d => if ¬ (data.status d).isOk then data.status d else it.status
    | none => it.status

/-- `SetDataIterator`. -/
def setDataIterator (it : TwoLevelIterator ι δ) (dataIter : Option δ) : TwoLevelIterator ι δ :=
  let it := match it.dataIter with
    | some d => it.saveError (data.status d)
    | none => it
  { it with dataIter }

/-- `InitDataBlock`. -/
def initDataBlock (it : TwoLevelIterator ι δ) : Access (TwoLevelIterator ι δ) :=
  if ¬ index.valid it.indexIter then .ok (it.setDataIterator data none)
  else do
    let handle ← index.value it.indexIter
    if it.dataIter.isSome ∧ StringPiece.compare handle it.dataBlockHandle = 0 then
      -- data_iter_ is already constructed with this iterator, so
      -- no need to change anything
      return it
    else do
      let iter ← blockFunction handle
      return { it with dataBlockHandle := handle }.setDataIterator data (some iter)

/-- `if (data_iter_ != NULL) …`. -/
def onDataIter (it : TwoLevelIterator ι δ) (f : δ → Access δ) : Access (TwoLevelIterator ι δ) :=
  match it.dataIter with
  | none => .ok it
  | some d => do
    let d ← f d
    return { it with dataIter := some d }

/-- A turn of the loop of `SkipEmptyDataBlocksForward`. -/
def skipTurn (it : TwoLevelIterator ι δ) :
    Access (TwoLevelIterator ι δ ⊕ TwoLevelIterator ι δ) :=
  if it.valid data then .ok (.inr it)
  else if ¬ index.valid it.indexIter then .ok (.inr (it.setDataIterator data none))
  else do
    -- Move to next block
    let indexIter ← index.next it.indexIter
    let it ← { it with indexIter }.initDataBlock index data blockFunction
    let it ← it.onDataIter data.seekToFirst
    return .inl it

/-- `SkipEmptyDataBlocksForward`. -/
def skipEmptyDataBlocksForward (fuel : ℕ) (it : TwoLevelIterator ι δ) :
    Access (TwoLevelIterator ι δ) :=
  loop .stillRunning (skipTurn index data blockFunction) fuel it

/-- `Seek`. -/
def seek (fuel : ℕ) (target : Bytes) (it : TwoLevelIterator ι δ) :
    Access (TwoLevelIterator ι δ) := do
  let indexIter ← index.seek target it.indexIter
  let it ← { it with indexIter }.initDataBlock index data blockFunction
  let it ← it.onDataIter (data.seek target)
  it.skipEmptyDataBlocksForward index data blockFunction fuel

/-- `SeekToFirst`. -/
def seekToFirst (fuel : ℕ) (it : TwoLevelIterator ι δ) : Access (TwoLevelIterator ι δ) := do
  let indexIter ← index.seekToFirst it.indexIter
  let it ← { it with indexIter }.initDataBlock index data blockFunction
  let it ← it.onDataIter data.seekToFirst
  it.skipEmptyDataBlocksForward index data blockFunction fuel

/-- `Next`. -/
def next (fuel : ℕ) (it : TwoLevelIterator ι δ) : Access (TwoLevelIterator ι δ) :=
  if it.valid data then do
    let it ← it.onDataIter data.next
    it.skipEmptyDataBlocksForward index data blockFunction fuel
  else .error .assertFailed

/-- The virtual functions. -/
def ops (fuel : ℕ) : IteratorOps (TwoLevelIterator ι δ) where
  valid := valid data
  key := key data
  value := value data
  status := statusOf index data
  seekToFirst := seekToFirst index data blockFunction fuel
  seek := seek index data blockFunction fuel
  next := next index data blockFunction fuel

end TwoLevelIterator

/-! ### What is asked of the parts -/

/-- The index is a cursor over `idx`; the block of each handle in it is a cursor over the entries `f`
with the status `st`. -/
structure Blocks {ι δ : Type} (index : IteratorOps ι) (data : IteratorOps δ)
    (blockFunction : Bytes → Access δ) (idx : List Entry) (f : Bytes → List Entry)
    (st : Bytes → Status) (iAt : ι → List Entry → Prop) (dAt : Bytes → δ → List Entry → Prop) :
    Prop where
  index : IsCursor index idx .ok iAt
  data : ∀ e ∈ idx, IsCursor data (f e.2) (st e.2) (dAt e.2)
  block : ∀ e ∈ idx, ∃ d rest, blockFunction e.2 = .ok d ∧ dAt e.2 d rest

namespace TwoLevelIterator

variable {ι δ : Type} {index : IteratorOps ι} {data : IteratorOps δ}
  {blockFunction : Bytes → Access δ} {idx : List Entry} {f : Bytes → List Entry}
  {st : Bytes → Status} {iAt : ι → List Entry → Prop} {dAt : Bytes → δ → List Entry → Prop}
  {it : TwoLevelIterator ι δ} {post drest : List Entry}

/-! ### Errors -/

/-- An error is saved, or the data iterator has one. -/
def Failed (data : IteratorOps δ) (it : TwoLevelIterator ι δ) : Prop :=
  it.status ≠ .ok ∨ ∃ d, it.dataIter = some d ∧ data.status d ≠ .ok

theorem saveError_status (it : TwoLevelIterator ι δ) (s : Status) :
    (it.saveError s).status ≠ .ok ↔ it.status ≠ .ok ∨ s ≠ .ok := by
  rw [saveError]
  split_ifs with h
  · rw [Status.isOk_iff, Status.isOk_iff] at h
    simp [h.1]
  · rw [Status.isOk_iff, Status.isOk_iff] at h
    tauto

variable (data) in
/-- **No error is lost** when the data iterator is replaced. -/
theorem setDataIterator_status (it : TwoLevelIterator ι δ) (dataIter : Option δ) :
    (it.setDataIterator data dataIter).status ≠ .ok ↔ Failed data it := by
  rw [setDataIterator, Failed]
  cases it.dataIter with
  | none => simp
  | some d => simp [saveError_status]

variable (data) in
theorem setDataIterator_fields (it : TwoLevelIterator ι δ) (dataIter : Option δ) :
    (it.setDataIterator data dataIter).dataIter = dataIter ∧
      (it.setDataIterator data dataIter).indexIter = it.indexIter ∧
      (it.setDataIterator data dataIter).dataBlockHandle = it.dataBlockHandle := by
  rw [setDataIterator]
  cases it.dataIter with
  | none => exact ⟨rfl, rfl, rfl⟩
  | some d =>
    dsimp only [saveError]
    split_ifs <;> exact ⟨rfl, rfl, rfl⟩

/-! ### The invariant -/

/-- The data iterator is over the block of the handle remembered, and an error saved is a block's. -/
structure Linked (idx : List Entry) (st : Bytes → Status) (dAt : Bytes → δ → List Entry → Prop)
    (it : TwoLevelIterator ι δ) : Prop where
  serves : ∀ d, it.dataIter = some d →
    ∃ e ∈ idx, it.dataBlockHandle = e.2 ∧ ∃ rest, dAt e.2 d rest
  honest : it.status ≠ .ok → ∃ e ∈ idx, st e.2 ≠ .ok

/-- With the index in front of `post`, the data iterator is in front of `drest`. -/
def Current (dAt : Bytes → δ → List Entry → Prop) (it : TwoLevelIterator ι δ) (drest : List Entry) :
    List Entry → Prop
  | [] => it.dataIter = none ∧ drest = []
  | e :: _ => ∃ d, it.dataIter = some d ∧ it.dataBlockHandle = e.2 ∧ dAt e.2 d drest

/-- **Where the iterator stands**: the index has been placed behind `before` and moved over `pre`, all
of whose errors are known. -/
structure Stands (data : IteratorOps δ) (idx : List Entry) (st : Bytes → Status)
    (iAt : ι → List Entry → Prop) (dAt : Bytes → δ → List Entry → Prop)
    (it : TwoLevelIterator ι δ) (before pre post drest : List Entry) : Prop
    extends Linked idx st dAt it where
  split : idx = before ++ pre ++ post
  index : iAt it.indexIter post
  current : Current dAt it drest post
  passed : ∀ e ∈ pre, st e.2 ≠ .ok → Failed data it

/-- **A position**: all entries still in front of the iterator. -/
def InFront (data : IteratorOps δ) (idx : List Entry) (f : Bytes → List Entry) (st : Bytes → Status)
    (iAt : ι → List Entry → Prop) (dAt : Bytes → δ → List Entry → Prop)
    (it : TwoLevelIterator ι δ) (before rest : List Entry) : Prop :=
  ∃ pre post drest, Stands data idx st iAt dAt it before pre post drest ∧
    (post ≠ [] → drest ≠ []) ∧ drest ++ contents f post.tail = rest

/-- A new iterator is at the end. -/
theorem new_inFront {indexIter : ι} (hat : iAt indexIter []) :
    InFront data idx f st iAt dAt (new indexIter) idx [] :=
  ⟨[], [], [], ⟨⟨by simp [new], by simp [new]⟩, by simp, hat, ⟨rfl, rfl⟩, by simp⟩, by simp, rfl⟩

variable (h : Blocks index data blockFunction idx f st iAt dAt)
include h

/-- An error of the data iterator is its block's. -/
theorem Linked.failed (hlink : Linked idx st dAt it) (hfailed : Failed data it) :
    ∃ e ∈ idx, st e.2 ≠ .ok := by
  rcases hfailed with hstatus | ⟨d, hd, hstatus⟩
  · exact hlink.honest hstatus
  · obtain ⟨e, he, -, rest, hat⟩ := hlink.serves d hd
    rw [(h.data e he).status hat] at hstatus
    exact ⟨e, he, hstatus⟩

/-- `status()` is bad exactly when there is an error. -/
theorem statusOf_iff (hat : iAt it.indexIter post) :
    it.statusOf index data ≠ .ok ↔ Failed data it := by
  rw [statusOf, h.index.status hat, if_neg (by simp), Failed]
  cases it.dataIter with
  | none => simp
  | some d =>
    dsimp only
    split_ifs with hok
    · rw [Status.isOk_iff] at hok
      simp [hok]
    · rw [Status.isOk_iff] at hok
      simp [hok]

/-! ### The functions -/

/-- **`InitDataBlock`** makes the block of the index entry current. -/
theorem initDataBlock_spec (hlink : Linked idx st dAt it) (hat : iAt it.indexIter post)
    (hpost : post ⊆ idx) :
    ∃ it' drest, it.initDataBlock index data blockFunction = .ok it' ∧
      it'.indexIter = it.indexIter ∧ Linked idx st dAt it' ∧ Current dAt it' drest post ∧
      (Failed data it → Failed data it') := by
  have hvalid := h.index.valid hat
  cases post with
  | nil =>
    obtain ⟨hdata, hindex, -⟩ := setDataIterator_fields data it none
    refine ⟨_, [], by rw [initDataBlock, if_pos (by simpa using hvalid)], hindex, ⟨?_, ?_⟩,
      ⟨hdata, rfl⟩, ?_⟩
    · intro d hd
      rw [hdata] at hd
      cases hd
    · rw [setDataIterator_status]
      exact hlink.failed h
    · intro hfailed
      exact .inl ((setDataIterator_status data it none).mpr hfailed)
  | cons e post =>
    have he : e ∈ idx := hpost List.mem_cons_self
    rw [initDataBlock, if_neg (by simpa using hvalid), (h.index.entry hat).2, Access.ok_bind]
    by_cases hsame : it.dataIter.isSome ∧ StringPiece.compare e.2 it.dataBlockHandle = 0
    · -- the block is current already
      obtain ⟨hsome, hhandle⟩ := hsame
      obtain ⟨d, hd⟩ := Option.isSome_iff_exists.mp hsome
      obtain ⟨e', he', hhandle', rest, hrest⟩ := hlink.serves d hd
      rw [StringPiece.compare_eq_zero_iff] at hhandle
      rw [if_pos ⟨hsome, (StringPiece.compare_eq_zero_iff _ _).mpr hhandle⟩]
      refine ⟨it, rest, rfl, rfl, hlink, ⟨d, hd, hhandle.symm, ?_⟩, id⟩
      rw [hhandle, hhandle']
      exact hrest
    · obtain ⟨d, rest, hblock, hrest⟩ := h.block e he
      obtain ⟨hdata, hindex, hhandle⟩ := setDataIterator_fields data
        { it with dataBlockHandle := e.2 } (some d)
      have hstatus := setDataIterator_status data
        { it with dataBlockHandle := e.2 } (some d)
      rw [if_neg hsame, hblock, Access.ok_bind]
      refine ⟨_, rest, rfl, hindex, ⟨?_, ?_⟩, ⟨d, hdata, hhandle, hrest⟩, ?_⟩
      · intro d' hd'
        rw [hdata, Option.some.injEq] at hd'
        subst hd'
        exact ⟨e, he, hhandle, rest, hrest⟩
      · rw [hstatus]
        exact fun hfailed => hlink.failed h (show Failed data it from hfailed)
      · exact fun hfailed => .inl (hstatus.mpr hfailed)

/-- The data iterator moves within its block. -/
theorem onDataIter_spec (g : δ → Access δ) (dest : Bytes → List Entry) (hlink : Linked idx st dAt it)
    (hcurrent : Current dAt it drest post) (hpost : post ⊆ idx)
    (hg : ∀ e ∈ idx, ∀ d, dAt e.2 d drest → ∃ d', g d = .ok d' ∧ dAt e.2 d' (dest e.2)) :
    ∃ it', it.onDataIter g = .ok it' ∧ it'.indexIter = it.indexIter ∧ Linked idx st dAt it' ∧
      Current dAt it' (post.head?.elim [] fun e => dest e.2) post ∧
      (Failed data it → Failed data it') := by
  cases post with
  | nil =>
    refine ⟨it, ?_, rfl, hlink, ⟨hcurrent.1, rfl⟩, id⟩
    rw [onDataIter, hcurrent.1]
  | cons e post =>
    obtain ⟨d, hd, hhandle, hat⟩ := hcurrent
    have he : e ∈ idx := hpost List.mem_cons_self
    obtain ⟨d', hmove, hat'⟩ := hg e he d hat
    refine ⟨{ it with dataIter := some d' }, ?_, rfl, ⟨?_, hlink.honest⟩, ⟨d', rfl, hhandle, hat'⟩, ?_⟩
    · rw [onDataIter, hd]
      simp only [hmove, Access.ok_bind, Access.pure_eq]
    · rintro _ ⟨⟩
      exact ⟨e, he, hhandle, _, hat'⟩
    · rintro (hstatus | ⟨_, hd', hstatus⟩)
      · exact .inl hstatus
      · rw [hd, Option.some.injEq] at hd'
        subst hd'
        rw [(h.data e he).status hat, ← (h.data e he).status hat'] at hstatus
        exact .inr ⟨d', rfl, hstatus⟩

theorem valid_iff (hcurrent : Current dAt it drest post) (hpost : post ⊆ idx) :
    it.valid data = true ↔ drest ≠ [] := by
  cases post with
  | nil => simp [valid, hcurrent.1, hcurrent.2]
  | cons e post =>
    obtain ⟨d, hd, -, hat⟩ := hcurrent
    rw [valid, hd]
    exact (h.data e (hpost List.mem_cons_self)).valid hat

/-- **`SkipEmptyDataBlocksForward`** passes empty blocks until an entry or the end, and learns their
errors. -/
theorem skip_spec {before pre : List Entry} {fuel : ℕ}
    (hstands : Stands data idx st iAt dAt it before pre post drest) (hfuel : post.length < fuel) :
    ∃ it' pre' post' drest',
      it.skipEmptyDataBlocksForward index data blockFunction fuel = .ok it' ∧
      Stands data idx st iAt dAt it' before pre' post' drest' ∧ (post' ≠ [] → drest' ≠ []) ∧
      drest' ++ contents f post'.tail = drest ++ contents f post.tail ∧
      (Failed data it → Failed data it') := by
  have hsub : post ⊆ idx := by
    rw [hstands.split]
    exact List.subset_append_right _ _
  induction post generalizing it pre drest fuel with
  | nil =>
    obtain ⟨fuel, rfl⟩ : ∃ n, fuel = n + 1 := ⟨fuel - 1, by omega⟩
    have hnone := hstands.current.1
    have hinvalid : ¬ it.valid data = true := by simp [valid, hnone]
    have hindex := h.index.valid hstands.index
    have hstay : it.setDataIterator data none = it := by
      rw [setDataIterator, hnone]
      dsimp only
      rw [← hnone]
    refine ⟨it, pre, [], drest, ?_, hstands, fun hne => absurd rfl hne, rfl, id⟩
    rw [skipEmptyDataBlocksForward, loop, skipTurn, if_neg hinvalid, if_pos (by simpa using hindex),
      hstay]
  | cons e post ih =>
    obtain ⟨fuel, rfl⟩ : ∃ n, fuel = n + 1 := ⟨fuel - 1, by omega⟩
    have hvalid := valid_iff h hstands.current hsub
    by_cases hne : drest = []
    · -- the block is used up: move to the next one
      have hindexValid := (h.index.valid hstands.index).mpr (List.cons_ne_nil e post)
      obtain ⟨indexIter, hnext, hat⟩ := h.index.next hstands.index
      have hsub' : post ⊆ idx := fun x hx => hsub (List.mem_cons_of_mem _ hx)
      have hlink : Linked idx st dAt { it with indexIter } := ⟨hstands.serves, hstands.honest⟩
      obtain ⟨it₁, drest₁, hinit, hindex₁, hlink₁, hcurrent₁, hkeep₁⟩ :=
        initDataBlock_spec h hlink hat hsub'
      obtain ⟨it₂, hfirst, hindex₂, hlink₂, hcurrent₂, hkeep₂⟩ :=
        onDataIter_spec h data.seekToFirst f hlink₁ hcurrent₁ hsub'
          fun e' he' d hd => (h.data e' he').seekToFirst hd
      have hkeep : Failed data it → Failed data it₂ := fun hf => hkeep₂ (hkeep₁ hf)
      have hstands₂ : Stands data idx st iAt dAt it₂ before (pre ++ [e]) post
          (post.head?.elim [] fun e' => f e'.2) := by
        refine ⟨hlink₂, ?_, ?_, hcurrent₂, ?_⟩
        · rw [hstands.split]
          simp
        · rw [hindex₂, hindex₁]
          exact hat
        · intro e' he' hbad
          rcases List.mem_append.mp he' with he' | he'
          · exact hkeep (hstands.passed e' he' hbad)
          · -- the block just left was current, with its error
            rw [List.mem_singleton.mp he'] at hbad
            obtain ⟨d, hd, -, hdat⟩ := hstands.current
            refine hkeep (.inr ⟨d, hd, ?_⟩)
            rw [(h.data e (hsub List.mem_cons_self)).status hdat]
            exact hbad
      rw [List.length_cons] at hfuel
      obtain ⟨it', pre', post', drest', hskip, hstands', hne', hrest, hkeep'⟩ :=
        ih hstands₂ (show post.length < fuel by omega) hsub'
      refine ⟨it', pre', post', drest', ?_, hstands', hne', ?_, fun hf => hkeep' (hkeep hf)⟩
      · have hturn : it.skipTurn index data blockFunction = .ok (.inl it₂) := by
          rw [skipTurn, if_neg (by rw [hvalid]; exact fun hc => hc hne),
            if_neg (by simpa using hindexValid), hnext, Access.ok_bind, hinit, Access.ok_bind,
            hfirst, Access.ok_bind, Access.pure_eq]
        rw [skipEmptyDataBlocksForward, loop, hturn]
        exact hskip
      · rw [hrest, hne, List.nil_append, List.tail_cons]
        cases post with
        | nil => rfl
        | cons e' post => rw [contents_cons]; rfl
    · refine ⟨it, pre, e :: post, drest, ?_, hstands, fun _ => hne, rfl, id⟩
      rw [skipEmptyDataBlocksForward, loop, skipTurn, if_pos (hvalid.mpr hne)]

variable {before rest : List Entry}

/-- After the index has been placed: its block is made current, the data iterator placed in it, and
empty blocks passed. -/
theorem place_spec {fuel : ℕ} (hfuel : idx.length < fuel) {indexIter : ι} (g : δ → Access δ)
    (dest : Bytes → List Entry) (hsplit : idx = before ++ post) (hlink : Linked idx st dAt it)
    (hat : iAt indexIter post)
    (hg : ∀ e ∈ idx, ∀ d r, dAt e.2 d r → ∃ d', g d = .ok d' ∧ dAt e.2 d' (dest e.2)) :
    ∃ it', (do
        let it ← { it with indexIter }.initDataBlock index data blockFunction
        let it ← it.onDataIter g
        it.skipEmptyDataBlocksForward index data blockFunction fuel) = .ok it' ∧
      InFront data idx f st iAt dAt it' before
        ((post.head?.elim [] fun e => dest e.2) ++ contents f post.tail) ∧
      (Failed data it → Failed data it') := by
  have hsub : post ⊆ idx := by
    rw [hsplit]
    exact List.subset_append_right _ _
  have hlen : post.length ≤ idx.length := by
    rw [hsplit, List.length_append]
    omega
  have hlink' : Linked idx st dAt { it with indexIter } := ⟨hlink.serves, hlink.honest⟩
  obtain ⟨it₁, drest₁, hinit, hindex₁, hlink₁, hcurrent₁, hkeep₁⟩ := initDataBlock_spec h hlink' hat hsub
  obtain ⟨it₂, hmove, hindex₂, hlink₂, hcurrent₂, hkeep₂⟩ :=
    onDataIter_spec h g dest hlink₁ hcurrent₁ hsub fun e he d hd => hg e he d _ hd
  have hstands : Stands data idx st iAt dAt it₂ before [] post
      (post.head?.elim [] fun e => dest e.2) := by
    refine ⟨hlink₂, by rw [List.append_nil]; exact hsplit, ?_, hcurrent₂, by simp⟩
    rw [hindex₂, hindex₁]
    exact hat
  obtain ⟨it₃, pre', post', drest', hskip, hstands', hne', hrest, hkeep₃⟩ :=
    skip_spec h hstands (show post.length < fuel by omega)
  refine ⟨it₃, ?_, ⟨pre', post', drest', hstands', hne', hrest⟩,
    fun hf => hkeep₃ (hkeep₂ (hkeep₁ hf))⟩
  rw [hinit, Access.ok_bind, hmove, Access.ok_bind, hskip]

theorem seekToFirst_spec {fuel : ℕ} (hfuel : idx.length < fuel)
    (hfront : InFront data idx f st iAt dAt it before rest) :
    ∃ it', it.seekToFirst index data blockFunction fuel = .ok it' ∧
      InFront data idx f st iAt dAt it' [] (contents f idx) ∧ (Failed data it → Failed data it') := by
  obtain ⟨pre, post, drest, hstands, -, -⟩ := hfront
  obtain ⟨indexIter, hfirst, hat⟩ := h.index.seekToFirst hstands.index
  obtain ⟨it', hplace, hfront', hkeep⟩ := place_spec h hfuel data.seekToFirst f
    (List.nil_append idx).symm hstands.toLinked hat fun e he d r hd => (h.data e he).seekToFirst hd
  refine ⟨it', by rw [seekToFirst, hfirst, Access.ok_bind]; exact hplace, ?_, hkeep⟩
  cases idx with
  | nil => exact hfront'
  | cons e idx => exact hfront'

theorem seek_spec {fuel : ℕ} (hfuel : idx.length < fuel)
    (hfront : InFront data idx f st iAt dAt it before rest) (t : Bytes) :
    ∃ it' before', it.seek index data blockFunction fuel t = .ok it' ∧
      InFront data idx f st iAt dAt it' before' (seekGroups f t idx) ∧
      (Failed data it → Failed data it') := by
  obtain ⟨pre, post, drest, hstands, -, -⟩ := hfront
  obtain ⟨indexIter, hseek, hat⟩ := h.index.seek hstands.index t
  obtain ⟨before', hsplit⟩ := seekTo_suffix t idx
  obtain ⟨it', hplace, hfront', hkeep⟩ := place_spec h hfuel (data.seek t)
    (fun handle => seekTo t (f handle)) hsplit.symm hstands.toLinked hat
    fun e he d r hd => (h.data e he).seek hd t
  refine ⟨it', before', by rw [seek, hseek, Access.ok_bind]; exact hplace, ?_, hkeep⟩
  rw [seekGroups]
  cases hpost : seekTo t idx with
  | nil =>
    rw [hpost] at hfront'
    exact hfront'
  | cons e post =>
    rw [hpost] at hfront'
    exact hfront'

theorem next_spec {fuel : ℕ} (hfuel : idx.length < fuel) {e : Entry}
    (hfront : InFront data idx f st iAt dAt it before (e :: rest)) :
    ∃ it', it.next index data blockFunction fuel = .ok it' ∧
      InFront data idx f st iAt dAt it' before rest ∧ (Failed data it → Failed data it') := by
  obtain ⟨pre, post, drest, hstands, hne, hrest⟩ := hfront
  have hsub : post ⊆ idx := by
    rw [hstands.split]
    exact List.subset_append_right _ _
  have hlen : post.length ≤ idx.length := by
    rw [hstands.split, List.length_append]
    omega
  cases post with
  | nil =>
    rw [hstands.current.2] at hrest
    simp at hrest
  | cons b post =>
    obtain ⟨x, xs, rfl⟩ := List.exists_cons_of_ne_nil (hne (List.cons_ne_nil b post))
    rw [List.cons_append, List.cons.injEq] at hrest
    obtain ⟨rfl, rfl⟩ := hrest
    obtain ⟨it₁, hmove, hindex₁, hlink₁, hcurrent₁, hkeep₁⟩ :=
      onDataIter_spec h data.next (fun _ => xs) hstands.toLinked hstands.current hsub
        fun e' he' d hd => (h.data e' he').next hd
    have hstands₁ : Stands data idx st iAt dAt it₁ before pre (b :: post) xs := by
      refine ⟨hlink₁, hstands.split, ?_, hcurrent₁, fun e' he' hbad =>
        hkeep₁ (hstands.passed e' he' hbad)⟩
      rw [hindex₁]
      exact hstands.index
    obtain ⟨it₂, pre', post', drest', hskip, hstands', hne', hrest', hkeep₂⟩ :=
      skip_spec h hstands₁ (show (b :: post).length < fuel by omega)
    refine ⟨it₂, ?_, ⟨pre', post', drest', hstands', hne', hrest'⟩, fun hf => hkeep₂ (hkeep₁ hf)⟩
    rw [next, if_pos ((valid_iff h hstands.current hsub).mpr (List.cons_ne_nil _ _)), hmove,
      Access.ok_bind, hskip]

/-- What the client sees. -/
theorem inFront_valid (hfront : InFront data idx f st iAt dAt it before rest) :
    it.valid data = true ↔ rest ≠ [] := by
  obtain ⟨pre, post, drest, hstands, hne, rfl⟩ := hfront
  have hsub : post ⊆ idx := by
    rw [hstands.split]
    exact List.subset_append_right _ _
  rw [valid_iff h hstands.current hsub]
  cases post with
  | nil => simp [hstands.current.2]
  | cons b post => simp [hne]

theorem inFront_entry {e : Entry} (hfront : InFront data idx f st iAt dAt it before (e :: rest)) :
    it.key data = e.1 ∧ it.value data = .ok e.2 := by
  have hvalid := (inFront_valid h hfront).mpr (List.cons_ne_nil e rest)
  obtain ⟨pre, post, drest, hstands, hne, hrest⟩ := hfront
  cases post with
  | nil =>
    rw [hstands.current.2] at hrest
    simp at hrest
  | cons b post =>
    obtain ⟨x, xs, rfl⟩ := List.exists_cons_of_ne_nil (hne (List.cons_ne_nil b post))
    rw [List.cons_append, List.cons.injEq] at hrest
    obtain ⟨rfl, -⟩ := hrest
    obtain ⟨d, hd, -, hat⟩ := hstands.current
    have hb : b ∈ idx := by
      rw [hstands.split]
      simp
    obtain ⟨hkey, hvalue⟩ := (h.data b hb).entry hat
    rw [valid, hd] at hvalid
    rw [key, value, hd]
    exact ⟨hkey, by dsimp only; rw [if_pos hvalid, hvalue]⟩

theorem inFront_seen (fuel : ℕ) (hfront : InFront data idx f st iAt dAt it before rest) :
    seen (ops index data blockFunction fuel) it = .ok (rest.head?, it.statusOf index data) := by
  have hvalid := inFront_valid h hfront
  cases rest with
  | nil =>
    rw [seen, if_neg]
    · rfl
    · exact fun hv => hvalid.mp hv rfl
  | cons e rest =>
    obtain ⟨hkey, hvalue⟩ := inFront_entry h hfront
    have hv : (ops index data blockFunction fuel).valid it = true :=
      hvalid.mpr (List.cons_ne_nil e rest)
    rw [seen, if_pos hv]
    change (it.value data >>= fun value => pure (some (it.key data, value), it.statusOf index data)) = _
    rw [hvalue, hkey]
    rfl

/-- `status()` is bad exactly when there is an error. -/
theorem inFront_status (hfront : InFront data idx f st iAt dAt it before rest) :
    it.statusOf index data ≠ .ok ↔ Failed data it := by
  obtain ⟨pre, post, drest, hstands, -, -⟩ := hfront
  exact statusOf_iff h hstands.index

/-- At the end of a scan every bad block has been met. -/
theorem inFront_end (hfront : InFront data idx f st iAt dAt it [] []) :
    Failed data it ↔ ∃ e ∈ idx, st e.2 ≠ .ok := by
  obtain ⟨pre, post, drest, hstands, hne, hrest⟩ := hfront
  refine ⟨hstands.toLinked.failed h, ?_⟩
  rintro ⟨e, he, hbad⟩
  rw [List.append_eq_nil_iff] at hrest
  have hpost : post = [] := by
    by_contra hpost
    exact hne hpost hrest.1
  refine hstands.passed e ?_ hbad
  rw [hstands.split, hpost] at he
  simpa using he

/-! ### Runs and scans -/

/-- One call: the entry a cursor over the blocks lands on, and no error forgotten. -/
theorem step_spec {fuel : ℕ} (hfuel : idx.length < fuel)
    (hfront : InFront data idx f st iAt dAt it before rest) (op : Op Bytes) :
    ∃ it' before', iteratorStep (ops index data blockFunction fuel) it op
        = .ok (((groupsStep f idx rest op).1, it'.statusOf index data), it') ∧
      InFront data idx f st iAt dAt it' before' (groupsStep f idx rest op).2 ∧
      (Failed data it → Failed data it') := by
  have hcall : ∃ it' before', call (ops index data blockFunction fuel) it op = .ok it' ∧
      InFront data idx f st iAt dAt it' before' (groupsStep f idx rest op).2 ∧
      (Failed data it → Failed data it') := by
    cases op with
    | seekToFirst =>
      obtain ⟨it', hfirst, hfront', hkeep⟩ := seekToFirst_spec h hfuel hfront
      exact ⟨it', [], hfirst, hfront', hkeep⟩
    | seek t => exact seek_spec h hfuel hfront t
    | next =>
      have hvalid := inFront_valid h hfront
      cases rest with
      | nil =>
        refine ⟨it, before, ?_, hfront, id⟩
        rw [call, if_neg]
        exact fun hv => hvalid.mp hv rfl
      | cons e rest =>
        obtain ⟨it', hnext, hfront', hkeep⟩ := next_spec h hfuel hfront
        refine ⟨it', before, ?_, hfront', hkeep⟩
        have hv : (ops index data blockFunction fuel).valid it = true :=
          hvalid.mpr (List.cons_ne_nil e rest)
        rw [call, if_pos hv]
        exact hnext
  obtain ⟨it', before', hcall, hfront', hkeep⟩ := hcall
  refine ⟨it', before', ?_, hfront', hkeep⟩
  rw [iteratorStep, hcall, Access.ok_bind, inFront_seen h fuel hfront', Access.ok_bind]
  cases op <;> rfl

/-- **Over every run** the iterator shows the entries that a cursor over the blocks shows, and a status
once bad stays bad. -/
theorem twoLevel_refines {fuel : ℕ} (hfuel : idx.length < fuel)
    (hfront : InFront data idx f st iAt dAt it before rest) (calls : List (Op Bytes)) :
    ∃ outs it' before', run (iteratorStep (ops index data blockFunction fuel)) it calls
        = .ok (outs, it') ∧
      outs.map Prod.fst = (specRun (groupsStep f idx) rest calls).1 ∧
      InFront data idx f st iAt dAt it' before' (specRun (groupsStep f idx) rest calls).2 ∧
      (Failed data it → (∀ s ∈ outs, s.2 ≠ .ok) ∧ Failed data it') ∧
      outs.Pairwise fun a b => a.2 ≠ .ok → b.2 ≠ .ok := by
  induction calls generalizing it before rest with
  | nil => exact ⟨[], it, before, rfl, rfl, hfront, fun hf => ⟨by simp, hf⟩, List.Pairwise.nil⟩
  | cons op calls ih =>
    obtain ⟨it₁, before₁, hstep, hfront₁, hkeep₁⟩ := step_spec h hfuel hfront op
    obtain ⟨outs, it₂, before₂, hrun, houts, hfront₂, hkeep₂, hpair⟩ := ih hfront₁
    have hstatus := inFront_status h hfront₁
    refine ⟨((groupsStep f idx rest op).1, it₁.statusOf index data) :: outs, it₂, before₂, ?_, ?_,
      hfront₂, ?_, ?_⟩
    · rw [run_cons_ok hstep, hrun]
      rfl
    · rw [List.map_cons, houts, specRun]
    · intro hf
      refine ⟨?_, (hkeep₂ (hkeep₁ hf)).2⟩
      intro s hs
      rcases List.mem_cons.mp hs with rfl | hs
      · exact hstatus.mpr (hkeep₁ hf)
      · exact (hkeep₂ (hkeep₁ hf)).1 s hs
    · exact List.pairwise_cons.mpr ⟨fun s hs hbad => (hkeep₂ (hstatus.mp hbad)).1 s hs, hpair⟩

/-- A scan delivers what is in front of the iterator. -/
theorem scanFrom_spec {fuel n : ℕ} (hfuel : idx.length < fuel)
    (hfront : InFront data idx f st iAt dAt it before rest) (hn : rest.length < n) :
    ∃ it', scanFrom (ops index data blockFunction fuel) n it = .ok (rest, it') ∧
      InFront data idx f st iAt dAt it' before [] ∧ (Failed data it → Failed data it') := by
  induction rest generalizing it n with
  | nil =>
    obtain ⟨n, rfl⟩ : ∃ m, n = m + 1 := ⟨n - 1, by omega⟩
    have hinvalid : ¬ (ops index data blockFunction fuel).valid it = true :=
      fun hv => (inFront_valid h hfront).mp hv rfl
    exact ⟨it, by rw [scanFrom, if_neg hinvalid], hfront, id⟩
  | cons e rest ih =>
    obtain ⟨n, rfl⟩ : ∃ m, n = m + 1 := ⟨n - 1, by omega⟩
    have hvalid : (ops index data blockFunction fuel).valid it = true :=
      (inFront_valid h hfront).mpr (List.cons_ne_nil e rest)
    obtain ⟨hkey, hvalue⟩ := inFront_entry h hfront
    obtain ⟨it₁, hnext, hfront₁, hkeep₁⟩ := next_spec h hfuel hfront
    rw [List.length_cons] at hn
    obtain ⟨it₂, hscan, hfront₂, hkeep₂⟩ := ih hfront₁ (show rest.length < n by omega)
    refine ⟨it₂, ?_, hfront₂, fun hf => hkeep₂ (hkeep₁ hf)⟩
    rw [scanFrom, if_pos hvalid, show (ops index data blockFunction fuel).value it = .ok e.2 from hvalue,
      Access.ok_bind, show (ops index data blockFunction fuel).next it = .ok it₁ from hnext,
      Access.ok_bind, hscan, Access.ok_bind, show (ops index data blockFunction fuel).key it = e.1 from hkey]
    rfl

/-- **A full scan** delivers the entries of all blocks, and its status is bad at the end exactly when
some block's is. -/
theorem twoLevel_scan {fuel n : ℕ} (hfuel : idx.length < fuel) (hn : (contents f idx).length < n)
    (hfront : InFront data idx f st iAt dAt it before rest) :
    ∃ it', scan (ops index data blockFunction fuel) n it = .ok (contents f idx, it') ∧
      InFront data idx f st iAt dAt it' [] [] ∧
      (it.statusOf index data ≠ .ok → it'.statusOf index data ≠ .ok) ∧
      (it'.statusOf index data ≠ .ok ↔ ∃ e ∈ idx, st e.2 ≠ .ok) := by
  obtain ⟨it₁, hfirst, hfront₁, hkeep₁⟩ := seekToFirst_spec h hfuel hfront
  obtain ⟨it₂, hscan, hfront₂, hkeep₂⟩ := scanFrom_spec h hfuel hfront₁ hn
  refine ⟨it₂, ?_, hfront₂, ?_, ?_⟩
  · rw [scan, show (ops index data blockFunction fuel).seekToFirst it = .ok it₁ from hfirst,
      Access.ok_bind, hscan]
  · rw [inFront_status h hfront, inFront_status h hfront₂]
    exact fun hf => hkeep₂ (hkeep₁ hf)
  · rw [inFront_status h hfront₂, inFront_end h hfront₂]

/-- **Without bad blocks and with separators in order** it is a cursor over all entries. -/
theorem twoLevel_isCursor {fuel : ℕ} (hfuel : idx.length < fuel) (hsep : Separated f idx)
    (hst : ∀ e ∈ idx, st e.2 = .ok) :
    IsCursor (ops index data blockFunction fuel) (contents f idx) .ok fun it rest =>
      ∃ before, InFront data idx f st iAt dAt it before rest where
  valid := by
    rintro it rest ⟨before, hfront⟩
    exact inFront_valid h hfront
  entry := by
    rintro it e rest ⟨before, hfront⟩
    exact inFront_entry h hfront
  status := by
    rintro it rest ⟨before, hfront⟩
    by_contra hbad
    have hfailed := (inFront_status h hfront).mp hbad
    obtain ⟨pre, post, drest, hstands, -, -⟩ := hfront
    obtain ⟨e, he, hne⟩ := hstands.toLinked.failed h hfailed
    exact hne (hst e he)
  seekToFirst := by
    rintro it rest ⟨before, hfront⟩
    obtain ⟨it', hfirst, hfront', -⟩ := seekToFirst_spec h hfuel hfront
    exact ⟨it', hfirst, [], hfront'⟩
  seek := by
    rintro it rest ⟨before, hfront⟩ t
    obtain ⟨it', before', hseek, hfront', -⟩ := seek_spec h hfuel hfront t
    rw [← seekTo_flatMap hsep] at hfront'
    exact ⟨it', hseek, before', hfront'⟩
  next := by
    rintro it e rest ⟨before, hfront⟩
    obtain ⟨it', hnext, hfront', -⟩ := next_spec h hfuel hfront
    exact ⟨it', hnext, before, hfront'⟩

end TwoLevelIterator

end LearnNetlib.Table
