import LearnNetlib.Base.Bytes
import LearnNetlib.Base.Status
import LearnNetlib.Foundations.Runs
import LearnNetlib.Foundations.SortedCursor

/-!
# `table::Iterator`

* `IteratorOps` — the virtual functions of `base/io/table/iterator.h`;
* `iteratorStep` — one call of a client, and what the client then sees; `scan` — a client's loop over
  all entries;
* `EmptyIterator` — `iterator.cc`;
* `IsCursor` — an iterator is a cursor over a list of entries, with a status it always reports;
* **`IsCursor.run_shows`** — over whole runs such an iterator shows what the cursor shows;
  `IsCursor.scan_eq`, `IsCursor.seek_shows` — what that means for a scan and for a search.
-/

namespace LearnNetlib.Table

open SortedCursor Runs

/-- A key and its value. -/
abbrev Entry := Bytes × Bytes

/-- The virtual functions of `Iterator`. -/
structure IteratorOps (ι : Type) where
  valid : ι → Bool
  key : ι → Bytes
  value : ι → Access Bytes
  status : ι → Status
  seekToFirst : ι → Access ι
  seek : (target : Bytes) → ι → Access ι
  next : ι → Access ι

/-- What a client sees: the entry it stands on, if any, and `status()`. -/
abbrev Seen := Option Entry × Status

section

variable {ι : Type} (ops : IteratorOps ι)

/-- `Valid()`, `key()`, `value()` and `status()`. -/
def seen (it : ι) : Access Seen :=
  if ops.valid it then do
    let value ← ops.value it
    return (some (ops.key it, value), ops.status it)
  else .ok (none, ops.status it)

/-- One call.  A client calls `Next` only when `Valid`. -/
def call (it : ι) : Op Bytes → Access ι
  | .seekToFirst => ops.seekToFirst it
  | .seek t => ops.seek t it
  | .next => if ops.valid it then ops.next it else .ok it

/-- One call, and what the client sees afterwards. -/
def iteratorStep (it : ι) (op : Op Bytes) : Access (Seen × ι) := do
  let it ← call ops it op
  let s ← seen ops it
  return (s, it)

/-- `for (; it->Valid(); it->Next())`, at most `n` turns: the entries met, and the iterator then. -/
def scanFrom : ℕ → ι → Access (List Entry × ι)
  | 0, _ => .error .stillRunning
  | n + 1, it =>
    if ops.valid it then do
      let value ← ops.value it
      let it' ← ops.next it
      let r ← scanFrom n it'
      return ((ops.key it, value) :: r.1, r.2)
    else .ok ([], it)

/-- `for (it->SeekToFirst(); it->Valid(); it->Next())`. -/
def scan (n : ℕ) (it : ι) : Access (List Entry × ι) := do
  let it ← ops.seekToFirst it
  scanFrom ops n it

end

/-! ### `EmptyIterator` -/

/-- The state of `EmptyIterator`: its status. -/
structure EmptyIterator where
  status : Status
  deriving Repr, DecidableEq

def EmptyIterator.ops : IteratorOps EmptyIterator where
  valid _ := false
  key _ := []
  value _ := .error .assertFailed
  status it := it.status
  seekToFirst it := .ok it
  seek _ it := .ok it
  next _ := .error .assertFailed

/-! ### Cursors -/

/-- `At it rest`: the iterator stands in front of `rest`. -/
structure IsCursor {ι : Type} (ops : IteratorOps ι) (entries : List Entry) (status : Status)
    (At : ι → List Entry → Prop) : Prop where
  valid : ∀ {it rest}, At it rest → (ops.valid it = true ↔ rest ≠ [])
  entry : ∀ {it e rest}, At it (e :: rest) → ops.key it = e.1 ∧ ops.value it = .ok e.2
  status : ∀ {it rest}, At it rest → ops.status it = status
  seekToFirst : ∀ {it rest}, At it rest →
    ∃ it', ops.seekToFirst it = .ok it' ∧ At it' entries
  seek : ∀ {it rest}, At it rest → ∀ t,
    ∃ it', ops.seek t it = .ok it' ∧ At it' (seekTo t entries)
  next : ∀ {it e rest}, At it (e :: rest) → ∃ it', ops.next it = .ok it' ∧ At it' rest

/-- `it` is a cursor in front of `rest`, in whatever way. -/
def CursorAt {ι : Type} (ops : IteratorOps ι) (entries : List Entry) (status : Status) (it : ι)
    (rest : List Entry) : Prop :=
  ∃ At, IsCursor ops entries status At ∧ At it rest

/-- Cursors of all ways together are a cursor. -/
theorem isCursor_cursorAt {ι : Type} (ops : IteratorOps ι) (entries : List Entry) (status : Status) :
    IsCursor ops entries status (CursorAt ops entries status) where
  valid := by
    rintro it rest ⟨At, h, hat⟩
    exact h.valid hat
  entry := by
    rintro it e rest ⟨At, h, hat⟩
    exact h.entry hat
  status := by
    rintro it rest ⟨At, h, hat⟩
    exact h.status hat
  seekToFirst := by
    rintro it rest ⟨At, h, hat⟩
    obtain ⟨it', hseek, hat'⟩ := h.seekToFirst hat
    exact ⟨it', hseek, At, h, hat'⟩
  seek := by
    rintro it rest ⟨At, h, hat⟩ t
    obtain ⟨it', hseek, hat'⟩ := h.seek hat t
    exact ⟨it', hseek, At, h, hat'⟩
  next := by
    rintro it e rest ⟨At, h, hat⟩
    obtain ⟨it', hnext, hat'⟩ := h.next hat
    exact ⟨it', hnext, At, h, hat'⟩

/-- An `EmptyIterator` is a cursor over nothing. -/
theorem EmptyIterator.isCursor (status : Status) :
    IsCursor ops [] status fun it rest => it = ⟨status⟩ ∧ rest = [] where
  valid h := by simp [ops, h.2]
  entry h := by simp at h
  status h := by rw [h.1, ops]
  seekToFirst h := ⟨_, rfl, h.1, rfl⟩
  seek h _ := ⟨_, rfl, h.1, rfl⟩
  next h := by simp at h

/-- The cursor as a specification of `iteratorStep`. -/
def cursorSpec (entries : List Entry) (status : Status) (rest : List Entry) (op : Op Bytes) :
    Seen × List Entry :=
  (((cursorStep entries rest op).1, status), (cursorStep entries rest op).2)

namespace IsCursor

variable {ι : Type} {ops : IteratorOps ι} {entries : List Entry} {status : Status}
  {At : ι → List Entry → Prop} (h : IsCursor ops entries status At)
include h

theorem seen_eq {it : ι} {rest : List Entry} (hat : At it rest) :
    seen ops it = .ok (rest.head?, status) := by
  have hvalid := h.valid hat
  have hstatus := h.status hat
  cases rest with
  | nil =>
    rw [seen, if_neg (by simpa using hvalid), hstatus]
    rfl
  | cons e rest =>
    obtain ⟨hkey, hvalue⟩ := h.entry hat
    rw [seen, if_pos (by simpa using hvalid), hvalue, hkey, hstatus]
    rfl

/-- One call moves the iterator as it moves the cursor. -/
theorem step_refines {it : ι} {rest : List Entry} (hat : At it rest) (op : Op Bytes) :
    ∃ it', iteratorStep ops it op = .ok ((cursorSpec entries status rest op).1, it') ∧
      At it' (cursorSpec entries status rest op).2 := by
  have hcall : ∃ it', call ops it op = .ok it' ∧ At it' (cursorStep entries rest op).2 := by
    cases op with
    | seekToFirst => exact h.seekToFirst hat
    | seek t => exact h.seek hat t
    | next =>
      cases rest with
      | nil =>
        -- at the end a client does not call `Next`
        have hinvalid : ¬ ops.valid it = true := fun hv => (h.valid hat).mp hv rfl
        exact ⟨it, by rw [call, if_neg hinvalid], hat⟩
      | cons e rest =>
        rw [call, if_pos ((h.valid hat).mpr (List.cons_ne_nil e rest))]
        exact h.next hat
  obtain ⟨it', hcall, hat'⟩ := hcall
  refine ⟨it', ?_, hat'⟩
  rw [iteratorStep, hcall, Access.ok_bind, h.seen_eq hat']
  cases op <;> rfl

/-- **Over every run the iterator shows what the cursor shows.** -/
theorem run_shows {it : ι} {rest : List Entry} (hat : At it rest) (calls : List (Op Bytes)) :
    ∃ it' rest', run (iteratorStep ops) it calls
      = .ok ((specRun (cursorSpec entries status) rest calls).1, it') ∧ At it' rest' := by
  have hsim : ∀ it rest op, At it rest → True →
      ∃ it', iteratorStep ops it op = .ok ((cursorSpec entries status rest op).1, it') ∧
        At it' (cursorSpec entries status rest op).2 :=
    fun it rest op hat _ => h.step_refines hat op
  obtain ⟨it', hrun, hat'⟩ := Runs.run_refines hsim hat
    (permitted_true (cursorSpec entries status) rest calls)
  exact ⟨it', _, hrun, hat'⟩

/-- The same for calls that a client may make. -/
theorem run_refines {it : ι} {rest : List Entry} (hat : At it rest) (calls : List (Op Bytes))
    (_ : Permitted permitted (cursorSpec entries status) rest calls) :
    ∃ it', run (iteratorStep ops) it calls
      = .ok ((specRun (cursorSpec entries status) rest calls).1, it') := by
  obtain ⟨it', -, hrun, -⟩ := h.run_shows hat calls
  exact ⟨it', hrun⟩

/-- A scan delivers what is in front of the iterator. -/
theorem scanFrom_eq {it : ι} {rest : List Entry} (hat : At it rest) {n : ℕ} (hn : rest.length < n) :
    ∃ it', scanFrom ops n it = .ok (rest, it') ∧ At it' [] := by
  induction rest generalizing it n with
  | nil =>
    obtain ⟨n, rfl⟩ : ∃ m, n = m + 1 := ⟨n - 1, by omega⟩
    have hinvalid : ¬ ops.valid it = true := fun hv => (h.valid hat).mp hv rfl
    exact ⟨it, by rw [scanFrom, if_neg hinvalid], hat⟩
  | cons e rest ih =>
    obtain ⟨n, rfl⟩ : ∃ m, n = m + 1 := ⟨n - 1, by omega⟩
    obtain ⟨hkey, hvalue⟩ := h.entry hat
    obtain ⟨it₁, hnext, hat₁⟩ := h.next hat
    rw [List.length_cons] at hn
    obtain ⟨it₂, hscan, hat₂⟩ := ih hat₁ (show rest.length < n by omega)
    refine ⟨it₂, ?_, hat₂⟩
    rw [scanFrom, if_pos ((h.valid hat).mpr (List.cons_ne_nil e rest)), hvalue, Access.ok_bind, hnext,
      Access.ok_bind, hscan, Access.ok_bind, hkey]
    rfl

/-- **A full scan** delivers all entries. -/
theorem scan_eq {it : ι} {rest : List Entry} (hat : At it rest) {n : ℕ} (hn : entries.length < n) :
    ∃ it', scan ops n it = .ok (entries, it') := by
  obtain ⟨it₁, hfirst, hat₁⟩ := h.seekToFirst hat
  obtain ⟨it₂, hscan, -⟩ := h.scanFrom_eq hat₁ hn
  exact ⟨it₂, by rw [scan, hfirst, Access.ok_bind, hscan]⟩

/-- `Seek` shows the first entry not below the target. -/
theorem seek_shows {it : ι} {rest : List Entry} (hat : At it rest) (t : Bytes) :
    ∃ it', iteratorStep ops it (.seek t)
      = .ok ((entries.find? fun e => decide (t ≤ e.1), status), it') := by
  obtain ⟨it', hstep, -⟩ := h.step_refines hat (.seek t)
  refine ⟨it', hstep.trans ?_⟩
  rw [cursorSpec, cursorStep, head?_seekTo]

end IsCursor

end LearnNetlib.Table
