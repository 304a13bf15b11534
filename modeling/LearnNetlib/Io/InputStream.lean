import LearnNetlib.Io.InputBuffer

/-!
# Input streams

* `InputStreamInterface`, `skipByReading` — the interface, and its skipping by reading;
* `ReadableFile`, `randomAccessInputStream` — a file whose answers may depend on the reads made before,
  and the stream of `base/io/random_inputstream.cc` over it;
* `Delivers` — what a stream is for: a position in a string of bytes;
* **`skipByReading_spec`** — skipping by reading moves as one read would;
* **`randomAccessInputStream_delivers`** — while the file answers what it holds.
-/

namespace LearnNetlib.Stream

open InputBuffer (window window_add window_length_le)

variable {σ : Type}

/-! ### The interface -/

/-- `InputStreamInterface`; the bytes of `readNBytes` are those it put into `*result`. -/
structure InputStreamInterface (σ : Type) where
  readNBytes : ℤ → σ → Access (Status × Bytes × σ)
  skipNBytes : ℤ → σ → Access (Status × σ)
  tell : σ → ℤ
  reset : σ → Access (Status × σ)

/-- To limit memory usage, only 8MB at a time. -/
def kMaxSkipSize : ℕ := 8 * 1024 * 1024

/-- The loop of `InputStreamInterface::SkipNBytes`. -/
def skipLoop (readNBytes : ℤ → σ → Access (Status × Bytes × σ)) :
    ℕ → (bytesToSkip : ℕ) → σ → Access (Status × σ)
  | 0, _, _ => .error .stillRunning
  | fuel + 1, bytesToSkip, stream =>
    if bytesToSkip > 0 then do
      let bytesToRead := min kMaxSkipSize bytesToSkip
      let (s, _, stream) ← readNBytes bytesToRead stream
      if s.isOk then skipLoop readNBytes fuel (bytesToSkip - bytesToRead) stream
      else return (s, stream)
    else .ok (.ok, stream)

/-- `InputStreamInterface::SkipNBytes`, unless it is overridden. -/
def skipByReading (readNBytes : ℤ → σ → Access (Status × Bytes × σ)) (fuel : ℕ) (bytesToSkip : ℤ)
    (stream : σ) : Access (Status × σ) :=
  if bytesToSkip < 0 then
    .ok (Errors.invalidArgument "Can't skip a negative number of bytes", stream)
  else skipLoop readNBytes fuel bytesToSkip.toNat stream

/-! ### `RandomAccessInputStream` -/

/-- One call of `Read` and its answer. -/
structure ReadCall where
  offset : ℕ
  n : ℕ
  result : ReadResult
  deriving Repr, DecidableEq

/-- A `RandomAccessFile` whose answers may depend on the calls made before. -/
structure ReadableFile where
  read : (reads : List ReadCall) → (offset n : ℕ) → ReadResult

/-- A file that always answers alike. -/
def steadyFile (file : RandomAccessFile) : ReadableFile := ⟨fun _ => file.read⟩

/-- `pos_`, and the calls made on the file. -/
structure RandomAccessState where
  pos : ℕ
  reads : List ReadCall
  deriving Repr, DecidableEq

/-- `RandomAccessInputStream::ReadNBytes`. -/
def RandomAccessState.readNBytes (file : ReadableFile) (bytesToRead : ℤ) (r : RandomAccessState) :
    Status × Bytes × RandomAccessState :=
  if bytesToRead < 0 then
    (Errors.invalidArgument "Cannot read negative number of bytes", [], r)
  else
    let n := bytesToRead.toNat
    let answer := file.read r.reads r.pos n
    let reads := r.reads ++ [⟨r.pos, n, answer⟩]
    let s := answer.status
    if s.isOk ∨ Errors.isOutOfRange s then
      let r := { pos := r.pos + answer.data.length, reads := reads }
      if answer.data.length < n then (Errors.outOfRange "reached end of file", answer.data, r)
      else (.ok, answer.data, r)
    else
      -- `*result` has been filled, `pos_` has not moved
      (s, answer.data, { r with reads := reads })

/-- `RandomAccessInputStream::Seek`. -/
def RandomAccessState.seek (position : ℕ) (r : RandomAccessState) : RandomAccessState :=
  { r with pos := position }

/-- `RandomAccessInputStream`. -/
def randomAccessInputStream (file : ReadableFile) (fuel : ℕ) :
    InputStreamInterface RandomAccessState where
  readNBytes n r := .ok (r.readNBytes file n)
  skipNBytes := skipByReading (fun n r => .ok (r.readNBytes file n)) fuel
  tell r := r.pos
  reset r := .ok (.ok, r.seek 0)

/-! ### What a stream is for -/

/-- The status at the end. -/
def reachedEnd : Status := Errors.outOfRange "reached end of file"

/-- The status of a request for `n` bytes of which `got` exist. -/
def streamStatus (n got : ℕ) : Status := if got = n then .ok else reachedEnd

/-- The stream delivers `contents`; `At p` are its states with position `p`. -/
structure Delivers (stream : InputStreamInterface σ) (contents : Bytes) (At : ℕ → σ → Prop) :
    Prop where
  le : ∀ {p s}, At p s → p ≤ contents.length
  read : ∀ {p s} (n : ℕ), At p s → ∃ s', stream.readNBytes n s
      = .ok (streamStatus n (window contents p n).length, window contents p n, s') ∧
    At (p + (window contents p n).length) s'
  skip : ∀ {p s} (n : ℕ), At p s → ∃ s', stream.skipNBytes n s
      = .ok (streamStatus n (window contents p n).length, s') ∧
    At (p + (window contents p n).length) s'
  negative : ∀ {p s n}, At p s → n < 0 → ∃ msg, stream.readNBytes n s
      = .ok (Errors.invalidArgument msg, [], s)
  tell : ∀ {p s}, At p s → stream.tell s = p
  reset : ∀ {p s}, At p s → ∃ s', stream.reset s = .ok (.ok, s') ∧ At 0 s'

variable {contents : Bytes} {p : ℕ}

theorem window_length (contents : Bytes) (p n : ℕ) :
    (window contents p n).length = min n (contents.length - p) := by
  rw [window, List.length_take, List.length_drop]

/-- A window of `n` bytes ends at the target or at the end. -/
theorem add_window_length (hp : p ≤ contents.length) (n : ℕ) :
    p + (window contents p n).length = min (p + n) contents.length := by
  rw [window_length]
  omega

theorem streamStatus_window (hp : p ≤ contents.length) (n : ℕ) :
    streamStatus n (window contents p n).length
      = if p + n ≤ contents.length then .ok else reachedEnd := by
  rw [streamStatus, window_length]
  by_cases h : p + n ≤ contents.length
  · rw [if_pos h, if_pos (by omega)]
  · rw [if_neg h, if_neg (by omega)]

/-- The status is OK exactly if the window is complete. -/
theorem streamStatus_isOk (n got : ℕ) : (streamStatus n got).isOk = decide (got = n) := by
  rw [streamStatus]
  split_ifs with h
  · simp [h]
  · simp [h, reachedEnd, Errors.outOfRange]

/-- **Skipping by reading** moves as one read would. -/
theorem skipByReading_spec {readNBytes : ℤ → σ → Access (Status × Bytes × σ)} {At : ℕ → σ → Prop}
    (hread : ∀ p s (n : ℕ), At p s → ∃ s', readNBytes n s
        = .ok (streamStatus n (window contents p n).length, window contents p n, s') ∧
      At (p + (window contents p n).length) s')
    {fuel : ℕ} (n : ℕ) {s : σ} (h : At p s) (hfuel : contents.length - p < fuel) :
    ∃ s', skipByReading readNBytes fuel n s
        = .ok (streamStatus n (window contents p n).length, s') ∧
      At (p + (window contents p n).length) s' := by
  rw [skipByReading, if_neg (by omega), Int.toNat_natCast]
  induction fuel generalizing n p s with
  | zero => omega
  | succ fuel ih =>
    rw [skipLoop]
    rcases Nat.eq_zero_or_pos n with rfl | hn
    · exact ⟨s, by simp [streamStatus, window], by simpa [window] using h⟩
    · obtain ⟨k, m, hk, rfl, hmin⟩ : ∃ k m, 0 < k ∧ n = k + m ∧ min kMaxSkipSize n = k :=
        ⟨min kMaxSkipSize n, n - min kMaxSkipSize n, by rw [kMaxSkipSize]; omega, by omega, rfl⟩
      obtain ⟨s₁, hchunk, h₁⟩ := hread p s k h
      rw [if_pos hn, hmin]
      dsimp only
      rw [hchunk, Access.ok_bind, Nat.add_sub_cancel_left]
      dsimp only
      rw [streamStatus_isOk]
      by_cases hfull : (window contents p k).length = k
      · -- a whole chunk: the rest from `p + k`
        rw [hfull] at h₁
        have hin := hfull
        rw [window_length] at hin
        obtain ⟨s₂, hrest, h₂⟩ := ih m h₁ (by omega)
        refine ⟨s₂, ?_, ?_⟩
        · rw [if_pos (by simpa using hfull), hrest, window_add, List.length_append, hfull,
            streamStatus, streamStatus]
          simp only [Nat.add_right_inj]
        · rwa [window_add, List.length_append, hfull, ← Nat.add_assoc]
      · -- a short one: the end
        have hshort := hfull
        rw [window_length] at hshort
        have hlen : (window contents p (k + m)).length = (window contents p k).length := by
          rw [window_length, window_length]
          omega
        refine ⟨s₁, ?_, by rwa [hlen]⟩
        rw [if_neg (by simpa using hfull), hlen, streamStatus, streamStatus, if_neg hfull,
          if_neg (by rw [window_length]; omega)]
        rfl

/-! ### Over a file that does not fail -/

/-- Reads return what is there, and fail at most because the file ends. -/
structure ReadableFile.Answers (file : ReadableFile) (contents : Bytes) : Prop where
  data : ∀ reads offset n, (file.read reads offset n).data = window contents offset n
  status : ∀ reads offset n, (file.read reads offset n).status.isOk = true ∨
    Errors.isOutOfRange (file.read reads offset n).status = true

/-- A file that serves its contents is one. -/
theorem steadyFile_answers {file : RandomAccessFile} (h : file.Serves contents) :
    (steadyFile file).Answers contents where
  data _ offset n := h.data offset n
  status _ offset n := by
    change (file.read offset n).status.isOk = true ∨ _
    rw [steadyFile]
    dsimp only
    rw [h.status, RandomAccessFile.readStatus]
    split_ifs
    · exact .inl rfl
    · exact .inr rfl

/-- The states of the stream at a position. -/
def RandomAt (contents : Bytes) (p : ℕ) (r : RandomAccessState) : Prop :=
  r.pos = p ∧ p ≤ contents.length

theorem randomAccess_read {file : ReadableFile} (hfile : file.Answers contents)
    {r : RandomAccessState} (n : ℕ) (h : RandomAt contents p r) :
    ∃ r', r.readNBytes file n
        = (streamStatus n (window contents p n).length, window contents p n, r') ∧
      RandomAt contents (p + (window contents p n).length) r' := by
  obtain ⟨rfl, hp⟩ := h
  have hlen := window_length_le contents r.pos n
  have hin := add_window_length hp n
  rw [RandomAccessState.readNBytes, if_neg (by omega), Int.toNat_natCast]
  simp only [hfile.data, hfile.status, if_true]
  rw [streamStatus]
  by_cases hfull : (window contents r.pos n).length = n
  · rw [if_neg (by omega), if_pos hfull]
    exact ⟨_, rfl, rfl, by omega⟩
  · rw [if_pos (by omega), if_neg hfull]
    exact ⟨_, rfl, rfl, by omega⟩

/-- **A `RandomAccessInputStream` delivers its file.** -/
theorem randomAccessInputStream_delivers {file : ReadableFile} (hfile : file.Answers contents)
    {fuel : ℕ} (hfuel : contents.length < fuel) :
    Delivers (randomAccessInputStream file fuel) contents (RandomAt contents) where
  le h := h.2
  read n h := by
    obtain ⟨r', hread, h'⟩ := randomAccess_read hfile n h
    exact ⟨r', congrArg Except.ok hread, h'⟩
  skip n h :=
    skipByReading_spec
      (fun p r n h => by
        obtain ⟨r', hread, h'⟩ := randomAccess_read hfile n h
        exact ⟨r', congrArg Except.ok hread, h'⟩)
      n h (by omega)
  negative _ hn := ⟨_, by
    change Except.ok (RandomAccessState.readNBytes file _ _) = _
    rw [RandomAccessState.readNBytes, if_pos hn]⟩
  tell h := congrArg Nat.cast h.1
  reset h := ⟨_, rfl, rfl, Nat.zero_le _⟩

end LearnNetlib.Stream
