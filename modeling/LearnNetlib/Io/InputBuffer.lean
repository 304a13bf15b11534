import LearnNetlib.Base.Files
import LearnNetlib.Foundations.Runs

/-!
# `io::InputBuffer`

A buffer of `size` bytes in front of a `RandomAccessFile`.

* `fillBuffer`, `readLine`, `readNBytes`, `skipNBytes`, `seek`, `tell` — the code of
  `base/io/inputbuffer.cc`, with every dereference of `pos_` a checked read;
* `cursorStep` — what the buffer is for: a plain position in the file;
* `Tracks` — the invariant tying the two: the buffer is the stretch of the file just before
  `file_pos_`, and the cursor is where `pos_` points;
* `refill_spec`, `readLoop_spec`, `readLineLoop_spec` — one lemma per loop, each by induction on the
  turns left;
* **`inputBuffer_refines_cursor`** — over every run, every buffer size and every way the file cuts
  its reads, the buffer answers exactly like the cursor.
-/

namespace LearnNetlib.InputBuffer

open LearnNetlib.Runs

/-! ### The code -/

/-- The fields of `InputBuffer` that change: `file_pos_`, the bytes `[buf_, limit_)`, and
`pos_ - buf_`. -/
structure State where
  filePos : ℕ
  buf : Bytes
  pos : ℕ
  deriving Repr, DecidableEq

/-- The constructor. -/
def init : State := ⟨0, [], 0⟩

section

variable (file : RandomAccessFile) (size : ℕ)

/-- `FillBuffer`. -/
def fillBuffer (b : State) : Status × State :=
  let r := file.read b.filePos size
  (r.status, { filePos := b.filePos + r.data.length, buf := r.data, pos := 0 })

/-- The head of all three loops: `if (pos_ == limit_) { s = FillBuffer(); if (limit_ == buf_) break; }`;
the last component says that the loop was left. -/
def refill (s : Status) (b : State) : Status × State × Bool :=
  if b.pos = b.buf.length then
    let r := fillBuffer file size b
    (r.1, r.2, r.2.buf.length = 0)
  else (s, b, false)

/-- The loop of `ReadLine`. -/
def readLineLoop : ℕ → Status → (result : Bytes) → State → Access (Status × Bytes × State)
  | 0, _, _, _ => .error .stillRunning
  | fuel + 1, s, result, b =>
    match refill file size s b with
    | (s, b, true) =>
      if Errors.isOutOfRange s ∧ result ≠ [] then .ok (.ok, result, b) else .ok (s, result, b)
    | (s, b, false) => do
      let c ← readByte b.buf b.pos
      let b := { b with pos := b.pos + 1 }
      if c = 0x0a then
        -- We don't append the '\n' to *result
        return (.ok, result, b)
      else
        -- We don't append '\r' to *result
        readLineLoop fuel s (if c ≠ 0x0d then result ++ [c] else result) b

/-- `ReadLine`. -/
def readLine (fuel : ℕ) (b : State) : Access (Status × Bytes × State) :=
  readLineLoop file size fuel .ok [] b

/-- The loop of `ReadNBytes`; `result` is what has been copied so far. -/
def readLoop (n : ℕ) : ℕ → Status → (result : Bytes) → State → Access (Status × Bytes × State)
  | 0, _, _, _ => .error .stillRunning
  | fuel + 1, status, result, b =>
    if result.length < n then
      match refill file size status b with
      | (status, b, true) => .ok (status, result, b)
      | (status, b, false) => do
        -- Do not go over the buffer boundary.
        let bytesToCopy := min (b.buf.length - b.pos) (n - result.length)
        let chunk ← readBytes b.buf b.pos bytesToCopy
        readLoop n fuel status (result ++ chunk) { b with pos := b.pos + bytesToCopy }
    else .ok (status, result, b)

/-- `ReadNBytes(int64, char*, size_t*)`; the bytes are those put into `result`. -/
def readNBytesInto (fuel : ℕ) (bytesToRead : ℤ) (b : State) : Access (Status × Bytes × State) :=
  if bytesToRead < 0 then
    .ok (Errors.invalidArgument s!"Can't read a negative number of bytes: {bytesToRead}", [], b)
  else do
    let (status, result, b) ← readLoop file size bytesToRead.toNat fuel .ok [] b
    if Errors.isOutOfRange status ∧ result.length = bytesToRead.toNat then
      return (.ok, result, b)
    else
      return (status, result, b)

/-- `ReadNBytes(int64, string*)`. -/
def readNBytes (fuel : ℕ) (bytesToRead : ℤ) (b : State) : Access (Status × Bytes × State) :=
  if bytesToRead < 0 then
    .ok (Errors.invalidArgument s!"Can't read a negative number of bytes: {bytesToRead}", [], b)
  else readNBytesInto file size fuel bytesToRead b

/-- The loop of `SkipNBytes`. -/
def skipLoop (n : ℕ) : ℕ → Status → (bytesSkipped : ℕ) → State → Access (Status × ℕ × State)
  | 0, _, _, _ => .error .stillRunning
  | fuel + 1, s, bytesSkipped, b =>
    if bytesSkipped < n then
      match refill file size s b with
      | (s, b, true) => .ok (s, bytesSkipped, b)
      | (s, b, false) =>
        let bytesToAdvance := min (b.buf.length - b.pos) (n - bytesSkipped)
        skipLoop n fuel s (bytesSkipped + bytesToAdvance) { b with pos := b.pos + bytesToAdvance }
    else .ok (s, bytesSkipped, b)

/-- `SkipNBytes`. -/
def skipNBytes (fuel : ℕ) (bytesToSkip : ℤ) (b : State) : Access (Status × State) :=
  if bytesToSkip < 0 then
    .ok (Errors.invalidArgument s!"Can only skip forward, not {bytesToSkip}", b)
  else do
    let (s, bytesSkipped, b) ← skipLoop file size bytesToSkip.toNat fuel .ok 0 b
    if Errors.isOutOfRange s ∧ bytesSkipped = bytesToSkip.toNat then
      return (.ok, b)
    else
      return (s, b)

end

/-- `Seek`. -/
def seek (position : ℤ) (b : State) : Status × State :=
  if position < 0 then
    (Errors.invalidArgument s!"Seeking to a negative position: {position}", b)
  else
    -- Position of the buffer within file.
    let bufpos : ℤ := b.filePos - b.buf.length
    if position ≥ bufpos ∧ position < b.filePos then
      -- Seeks to somewhere inside the buffer.
      (.ok, { b with pos := (position - bufpos).toNat })
    else
      -- Seeks to somewhere outside.  Discards the buffered data.
      (.ok, { filePos := position.toNat, buf := [], pos := 0 })

/-- `Tell`. -/
def tell (b : State) : ℤ := b.filePos - ((b.buf.length : ℤ) - b.pos)

/-! ### Operations and what the caller sees -/

inductive Op
  | readNBytes (n : ℤ)
  | skipNBytes (n : ℤ)
  | seek (q : ℤ)
  | tell
  | readLine
  deriving Repr, DecidableEq

/-- What one operation shows: its status, the bytes it returned, and `Tell()` afterwards. -/
structure Out where
  status : Status
  data : Bytes
  tell : ℤ
  deriving Repr, DecidableEq

/-- One call on the buffer. -/
def step (file : RandomAccessFile) (size fuel : ℕ) (b : State) : Op → Access (Out × State)
  | .readNBytes n => do
    let (s, data, b) ← readNBytes file size fuel n b
    return (⟨s, data, tell b⟩, b)
  | .skipNBytes n => do
    let (s, b) ← skipNBytes file size fuel n b
    return (⟨s, [], tell b⟩, b)
  | .seek q => .ok (⟨(seek q b).1, [], tell (seek q b).2⟩, (seek q b).2)
  | .tell => .ok (⟨.ok, [], tell b⟩, b)
  | .readLine => do
    let (s, data, b) ← readLine file size fuel b
    return (⟨s, data, tell b⟩, b)

/-! ### The plain cursor -/

/-- The status a cursor gives when the file ends first. -/
def endOfFile : Status := Errors.outOfRange "Read less bytes than requested"

/-- The bytes a cursor at `p` has in front of it, at most `n`. -/
def window (contents : Bytes) (p n : ℕ) : Bytes := (contents.drop p).take n

/-- The status of a request for `n` bytes of which `got` exist. -/
def windowStatus (n got : ℕ) : Status := if got = n then .ok else endOfFile

/-- The line in front of a cursor at `p`, without its newline. -/
def lineAt (contents : Bytes) (p : ℕ) : Bytes := (contents.drop p).takeWhile (· ≠ 0x0a)

/-- What `ReadLine` returns of it. -/
def lineText (contents : Bytes) (p : ℕ) : Bytes := (lineAt contents p).filter (· ≠ 0x0d)

/-- Whether that line ends in a newline and not in the end of the file. -/
def lineEnds (contents : Bytes) (p : ℕ) : Prop :=
  (lineAt contents p).length < (contents.drop p).length

instance (contents : Bytes) (p : ℕ) : Decidable (lineEnds contents p) :=
  inferInstanceAs (Decidable ((lineAt contents p).length < (contents.drop p).length))

/-- One operation of an unbuffered cursor `p` over `contents`. -/
def cursorStep (contents : Bytes) (p : ℕ) : Op → Out × ℕ
  | .readNBytes n =>
    if n < 0 then
      (⟨Errors.invalidArgument s!"Can't read a negative number of bytes: {n}", [], p⟩, p)
    else
      let data := window contents p n.toNat
      (⟨windowStatus n.toNat data.length, data, (p + data.length : ℕ)⟩, p + data.length)
  | .skipNBytes n =>
    if n < 0 then
      (⟨Errors.invalidArgument s!"Can only skip forward, not {n}", [], p⟩, p)
    else
      let got := (window contents p n.toNat).length
      (⟨windowStatus n.toNat got, [], (p + got : ℕ)⟩, p + got)
  | .seek q =>
    if q < 0 then
      (⟨Errors.invalidArgument s!"Seeking to a negative position: {q}", [], p⟩, p)
    else
      (⟨.ok, [], q⟩, q.toNat)
  | .tell => (⟨.ok, [], p⟩, p)
  | .readLine =>
    let text := lineText contents p
    if lineEnds contents p then
      let p' := p + (lineAt contents p).length + 1
      (⟨.ok, text, p'⟩, p')
    else
      let p' := p + (lineAt contents p).length
      (⟨if text = [] then endOfFile else .ok, text, p'⟩, p')

/-! ### The invariant -/

/-- The buffer holds the stretch of the file just before `file_pos_`, and the cursor `p` is where
`pos_` points. -/
structure Tracks (contents : Bytes) (b : State) (p : ℕ) : Prop where
  pos_le : b.pos ≤ b.buf.length
  start : b.pos ≤ p
  filePos : b.filePos = p + (b.buf.length - b.pos)
  held : contents.HasAt (p - b.pos) b.buf

theorem tracks_init (contents : Bytes) : Tracks contents init 0 :=
  ⟨le_rfl, le_rfl, rfl, Bytes.HasAt.nil⟩

variable {contents : Bytes} {b : State} {p : ℕ}

theorem Tracks.tell_eq (h : Tracks contents b p) : tell b = p := by
  have h1 := h.pos_le
  have h2 := h.filePos
  rw [tell]
  omega

/-- What is left in the buffer lies in front of the cursor. -/
theorem Tracks.unread (h : Tracks contents b p) : b.buf.drop b.pos <+: contents.drop p := by
  obtain ⟨t, ht⟩ := h.held
  refine ⟨t, ?_⟩
  rw [← List.drop_append_of_le_length h.pos_le, ht, List.drop_drop, Nat.sub_add_cancel h.start]

theorem Tracks.advance (h : Tracks contents b p) {k : ℕ} (hk : k ≤ b.buf.length - b.pos) :
    Tracks contents { b with pos := b.pos + k } (p + k) := by
  have h1 := h.pos_le
  have h2 := h.start
  have h3 := h.filePos
  refine ⟨by dsimp only; omega, by dsimp only; omega, by dsimp only; omega, ?_⟩
  have h4 := h.held
  rwa [show p + k - (b.pos + k) = p - b.pos by omega]

theorem Tracks.chunk (h : Tracks contents b p) {k : ℕ} (hk : k ≤ b.buf.length - b.pos) :
    readBytes b.buf b.pos k = .ok (window contents p k) ∧ (window contents p k).length = k := by
  have h1 := h.pos_le
  have hpre := List.prefix_iff_eq_take.mp h.unread
  have hlen := List.IsPrefix.length_le h.unread
  rw [List.length_drop] at hpre hlen
  rw [readBytes_of_le (by omega), hpre, List.take_take, Nat.min_eq_left hk]
  refine ⟨rfl, ?_⟩
  rw [window, List.length_take]
  omega

theorem Tracks.readByte (h : Tracks contents b p) (hpos : b.pos < b.buf.length) :
    ∃ c, readByte b.buf b.pos = .ok c ∧ contents.drop p = c :: contents.drop (p + 1) := by
  refine ⟨b.buf[b.pos], readByte_of_lt hpos, ?_⟩
  obtain ⟨t, ht⟩ := h.unread
  rw [List.drop_eq_getElem_cons hpos, List.cons_append] at ht
  rw [← List.drop_drop, ← ht, List.drop_one, List.tail_cons]

/-! ### The head of the loops -/

/-- The statuses a loop carries around. -/
def Carried (s : Status) : Prop := s = .ok ∨ s = endOfFile

variable {file : RandomAccessFile} {size : ℕ}

/-- **Refilling keeps the cursor**: either unread bytes are there, or the file has ended and the
status says so. -/
theorem refill_spec (hfile : file.Serves contents) (hsize : 1 ≤ size) {s : Status} (hs : Carried s)
    (h : Tracks contents b p) :
    ∃ s' b' left, refill file size s b = (s', b', left) ∧ Tracks contents b' p ∧ Carried s' ∧
      (left = true → s' = endOfFile ∧ contents.length ≤ p) ∧
      (left = false → b'.pos < b'.buf.length) := by
  rw [refill]
  split_ifs with hpos
  · have hp : b.filePos = p := by
      have := h.filePos
      omega
    refine ⟨_, _, _, rfl, ?_, ?_, ?_, ?_⟩
    all_goals simp only [fillBuffer, hfile.data, hfile.status, hp]
    · exact ⟨Nat.zero_le _, Nat.zero_le _, rfl, List.take_prefix _ _⟩
    · rw [RandomAccessFile.readStatus]
      split_ifs
      · exact .inl rfl
      · exact .inr rfl
    · intro hleft
      simp only [List.length_take, List.length_drop, decide_eq_true_eq] at hleft
      rw [RandomAccessFile.readStatus, if_neg (by omega)]
      exact ⟨rfl, by omega⟩
    · intro hleft
      simp only [decide_eq_false_iff_not] at hleft
      omega
  · have := h.pos_le
    exact ⟨s, b, false, rfl, h, hs, by simp, fun _ => by omega⟩

/-! ### `ReadNBytes` and `SkipNBytes` -/

theorem window_length_le (contents : Bytes) (p n : ℕ) : (window contents p n).length ≤ n :=
  List.length_take_le _ _

theorem window_add (contents : Bytes) (p k m : ℕ) :
    window contents p (k + m) = window contents p k ++ window contents (p + k) m := by
  rw [window, window, window, List.take_add, List.drop_drop]

theorem window_of_length_le (h : contents.length ≤ p) (n : ℕ) : window contents p n = [] := by
  rw [window, List.drop_of_length_le h, List.take_nil]

/-- **The loop of `ReadNBytes`**: it appends the window in front of the cursor and, when that is too
short, reports the end of the file. -/
theorem readLoop_spec (hfile : file.Serves contents) (hsize : 1 ≤ size) (n fuel : ℕ) {s : Status}
    (hs : Carried s) (result : Bytes) (hresult : result.length ≤ n) (h : Tracks contents b p)
    (hfuel : contents.length - p < fuel) :
    ∃ s' b', readLoop file size n fuel s result b
        = .ok (s', result ++ window contents p (n - result.length), b') ∧
      Tracks contents b' (p + (window contents p (n - result.length)).length) ∧ Carried s' ∧
      (result.length + (window contents p (n - result.length)).length < n → s' = endOfFile) := by
  induction fuel generalizing s result b p with
  | zero => omega
  | succ fuel ih =>
    rw [readLoop]
    split_ifs with hlt
    · obtain ⟨s₁, b₁, left, hrefill, h₁, hs₁, hend, hmore⟩ := refill_spec hfile hsize hs h
      rw [hrefill]
      cases left with
      | true =>
        obtain ⟨heof, hp⟩ := hend rfl
        refine ⟨s₁, b₁, ?_, ?_, hs₁, fun _ => heof⟩
        · simp [window_of_length_le hp]
        · simpa [window_of_length_le hp] using h₁
      | false =>
        -- one chunk of `k > 0` bytes, then the remaining turns from `p + k`
        have hpos := hmore rfl
        obtain ⟨hchunk, hlen⟩ :=
          h₁.chunk (Nat.min_le_left (b₁.buf.length - b₁.pos) (n - result.length))
        have hadv := h₁.advance (Nat.min_le_left (b₁.buf.length - b₁.pos) (n - result.length))
        have hk : 0 < min (b₁.buf.length - b₁.pos) (n - result.length) := by omega
        have hkn : min (b₁.buf.length - b₁.pos) (n - result.length) ≤ n - result.length :=
          Nat.min_le_right _ _
        dsimp only
        generalize min (b₁.buf.length - b₁.pos) (n - result.length) = k at hchunk hlen hadv hk hkn ⊢
        have hin : p + k ≤ contents.length := by
          rw [window, List.length_take, List.length_drop] at hlen
          omega
        have hlen' : (result ++ window contents p k).length = result.length + k := by
          rw [List.length_append, hlen]
        obtain ⟨s₂, b₂, hloop, h₂, hs₂, hshort⟩ :=
          ih hs₁ (result ++ window contents p k) (by omega) hadv (by omega)
        have hsplit : window contents p (n - result.length)
            = window contents p k ++ window contents (p + k) (n - (result.length + k)) := by
          rw [← window_add]
          congr 1
          omega
        rw [hlen'] at hloop h₂ hshort
        rw [hchunk, Access.ok_bind]
        refine ⟨s₂, b₂, ?_, ?_, hs₂, ?_⟩
        · rw [hloop, hsplit, List.append_assoc]
        · rw [hsplit, List.length_append, hlen, ← Nat.add_assoc]
          exact h₂
        · rw [hsplit, List.length_append, hlen, ← Nat.add_assoc]
          exact hshort
    · have hzero : n - result.length = 0 := by omega
      exact ⟨s, b, by simp [hzero, window], by simpa [hzero, window] using h, hs, by omega⟩

/-- **Skipping is reading without keeping the bytes.** -/
theorem skipLoop_eq_readLoop (n fuel : ℕ) (s : Status) (result : Bytes) (b : State)
    (hpos : b.pos ≤ b.buf.length) :
    skipLoop file size n fuel s result.length b
      = (readLoop file size n fuel s result b).map fun r => (r.1, r.2.1.length, r.2.2) := by
  induction fuel generalizing s result b with
  | zero => rfl
  | succ fuel ih =>
    rw [skipLoop, readLoop]
    split_ifs with hlt
    · have hpos₁ : (refill file size s b).2.1.pos ≤ (refill file size s b).2.1.buf.length := by
        rw [refill]
        split_ifs
        · exact Nat.zero_le _
        · exact hpos
      rcases hrefill : refill file size s b with ⟨s₁, b₁, left⟩
      rw [hrefill] at hpos₁
      cases left with
      | true => rfl
      | false =>
        dsimp only at hpos₁ ⊢
        have hle : b₁.pos + min (b₁.buf.length - b₁.pos) (n - result.length) ≤ b₁.buf.length := by
          omega
        have hlen : ((b₁.buf.drop b₁.pos).take
            (min (b₁.buf.length - b₁.pos) (n - result.length))).length
              = min (b₁.buf.length - b₁.pos) (n - result.length) := by
          rw [List.length_take, List.length_drop]
          omega
        rw [readBytes_of_le hle, Access.ok_bind, ← ih _ _ _ hle, List.length_append, hlen]
    · rfl

/-- The status both operations end with. -/
theorem final_status {n got : ℕ} {s : Status} (hs : Carried s) (hgot : got ≤ n)
    (hshort : got < n → s = endOfFile) :
    (if Errors.isOutOfRange s ∧ got = n then Status.ok else s) = windowStatus n got := by
  rw [windowStatus]
  rcases Nat.lt_or_ge got n with h | h
  · rw [hshort h, if_neg (by omega), if_neg (by omega)]
  · rw [if_pos (show got = n by omega)]
    rcases hs with rfl | rfl
    · simp
    · rw [if_pos ⟨rfl, by omega⟩]

theorem readNBytes_spec (hfile : file.Serves contents) (hsize : 1 ≤ size) {fuel : ℕ}
    (hfuel : contents.length < fuel) {n : ℤ} (hn : 0 ≤ n) (h : Tracks contents b p) :
    ∃ b', readNBytes file size fuel n b
        = .ok (windowStatus n.toNat (window contents p n.toNat).length,
            window contents p n.toNat, b') ∧
      Tracks contents b' (p + (window contents p n.toNat).length) := by
  obtain ⟨s', b', hloop, h', hs', hshort⟩ :=
    readLoop_spec hfile hsize n.toNat fuel (.inl rfl) [] (Nat.zero_le _) h (by omega)
  simp only [List.length_nil, Nat.sub_zero, List.nil_append, Nat.zero_add] at hloop h' hshort
  refine ⟨b', ?_, h'⟩
  rw [readNBytes, if_neg (by omega), readNBytesInto, if_neg (by omega), hloop, Access.ok_bind,
    ← final_status hs' (window_length_le _ _ _) hshort]
  dsimp only
  split_ifs <;> rfl

theorem skipNBytes_spec (hfile : file.Serves contents) (hsize : 1 ≤ size) {fuel : ℕ}
    (hfuel : contents.length < fuel) {n : ℤ} (hn : 0 ≤ n) (h : Tracks contents b p) :
    ∃ b', skipNBytes file size fuel n b
        = .ok (windowStatus n.toNat (window contents p n.toNat).length, b') ∧
      Tracks contents b' (p + (window contents p n.toNat).length) := by
  obtain ⟨s', b', hloop, h', hs', hshort⟩ :=
    readLoop_spec hfile hsize n.toNat fuel (.inl rfl) [] (Nat.zero_le _) h (by omega)
  simp only [List.length_nil, Nat.sub_zero, List.nil_append, Nat.zero_add] at hloop h' hshort
  refine ⟨b', ?_, h'⟩
  have hskip : skipLoop file size n.toNat fuel .ok 0 b = _ :=
    skipLoop_eq_readLoop n.toNat fuel .ok [] b h.pos_le
  rw [hloop] at hskip
  rw [skipNBytes, if_neg (by omega), hskip, ← final_status hs' (window_length_le _ _ _) hshort]
  simp only [Except.map, Access.ok_bind]
  split_ifs <;> rfl

/-! ### `ReadLine` -/

theorem lineAt_of_length_le (h : contents.length ≤ p) : lineAt contents p = [] := by
  rw [lineAt, List.drop_of_length_le h, List.takeWhile_nil]

theorem lineAt_newline (h : contents.drop p = 0x0a :: contents.drop (p + 1)) :
    lineAt contents p = [] := by
  rw [lineAt, h]
  rfl

theorem lineAt_cons {c : UInt8} (h : contents.drop p = c :: contents.drop (p + 1))
    (hc : c ≠ 0x0a) : lineAt contents p = c :: lineAt contents (p + 1) := by
  rw [lineAt, h, List.takeWhile_cons_of_pos (by simpa using hc), lineAt]

/-- The status `ReadLine` ends with, and how far it moves. -/
def lineStatus (contents : Bytes) (p : ℕ) (text : Bytes) : Status :=
  if lineEnds contents p then .ok else if text = [] then endOfFile else .ok

def lineStep (contents : Bytes) (p : ℕ) : ℕ :=
  (lineAt contents p).length + if lineEnds contents p then 1 else 0

theorem lineEnds_cons {c : UInt8} (h : contents.drop p = c :: contents.drop (p + 1))
    (hc : c ≠ 0x0a) : lineEnds contents p ↔ lineEnds contents (p + 1) := by
  rw [lineEnds, lineEnds, lineAt_cons h hc, h, List.length_cons, List.length_cons]
  omega

theorem not_lineEnds_of_length_le (h : contents.length ≤ p) : ¬ lineEnds contents p := by
  rw [lineEnds, List.drop_of_length_le h, List.length_nil]
  omega

theorem lineEnds_newline (h : contents.drop p = 0x0a :: contents.drop (p + 1)) : lineEnds contents p := by
  rw [lineEnds, lineAt_newline h, h]
  exact Nat.succ_pos _

/-- One more character of the line, and the line behind it. -/
theorem append_lineText_cons {c : UInt8} (h : contents.drop p = c :: contents.drop (p + 1))
    (hc : c ≠ 0x0a) (result : Bytes) :
    (if c ≠ 0x0d then result ++ [c] else result) ++ lineText contents (p + 1)
      = result ++ lineText contents p := by
  rw [lineText, lineText, lineAt_cons h hc]
  by_cases hcr : c = 0x0d
  · simp [hcr]
  · simp [hcr]

theorem add_lineStep_cons {c : UInt8} (h : contents.drop p = c :: contents.drop (p + 1))
    (hc : c ≠ 0x0a) : p + 1 + lineStep contents (p + 1) = p + lineStep contents p := by
  simp only [lineStep, lineAt_cons h hc, List.length_cons, lineEnds_cons h hc]
  omega

/-- **The loop of `ReadLine`**: from any cursor it appends the rest of the line. -/
theorem readLineLoop_spec (hfile : file.Serves contents) (hsize : 1 ≤ size) (fuel : ℕ) {s : Status}
    (hs : Carried s) (result : Bytes) (h : Tracks contents b p)
    (hfuel : contents.length - p < fuel) :
    ∃ b', readLineLoop file size fuel s result b
        = .ok (lineStatus contents p (result ++ lineText contents p),
            result ++ lineText contents p, b') ∧
      Tracks contents b' (p + lineStep contents p) := by
  induction fuel generalizing s result b p with
  | zero => omega
  | succ fuel ih =>
    obtain ⟨s₁, b₁, left, hrefill, h₁, hs₁, hend, hmore⟩ := refill_spec hfile hsize hs h
    rw [readLineLoop, hrefill]
    cases left with
    | true =>
      obtain ⟨rfl, hp⟩ := hend rfl
      have hline := lineAt_of_length_le hp
      have hends := not_lineEnds_of_length_le hp
      refine ⟨b₁, ?_, by simpa [lineStep, hline, hends] using h₁⟩
      simp only [lineText, hline, lineStatus, hends, List.filter_nil, List.append_nil, if_false]
      by_cases hres : result = []
      · simp [hres]
      · simp [hres, show Errors.isOutOfRange endOfFile = true from rfl]
    | false =>
      have hpos := hmore rfl
      obtain ⟨c, hread, hdrop⟩ := h₁.readByte hpos
      have hp : p < contents.length := by
        have hlen := congrArg List.length hdrop
        rw [List.length_cons, List.length_drop] at hlen
        omega
      have hadv := h₁.advance (show 1 ≤ b₁.buf.length - b₁.pos by omega)
      simp only [hread, Access.ok_bind]
      by_cases hc : c = 0x0a
      · subst hc
        have hline := lineAt_newline hdrop
        have hends := lineEnds_newline hdrop
        refine ⟨{ b₁ with pos := b₁.pos + 1 }, ?_, by simpa [lineStep, hline, hends] using hadv⟩
        simp [lineText, hline, lineStatus, hends]
      · obtain ⟨b₂, hloop, h₂⟩ :=
          ih hs₁ (if c ≠ 0x0d then result ++ [c] else result) hadv (by omega)
        have hends := lineEnds_cons hdrop hc
        rw [append_lineText_cons hdrop hc] at hloop
        rw [add_lineStep_cons hdrop hc] at h₂
        refine ⟨b₂, ?_, h₂⟩
        simp only [hc, if_false, hloop, lineStatus, hends]

/-! ### `Seek`, and the refinement -/

theorem seek_spec (h : Tracks contents b p) {q : ℤ} (hq : 0 ≤ q) :
    (seek q b).1 = .ok ∧ Tracks contents (seek q b).2 q.toNat := by
  have h1 := h.pos_le
  have h2 := h.start
  have h3 := h.filePos
  rw [seek, if_neg (by omega)]
  dsimp only
  split_ifs with hin
  · -- inside the buffer: only `pos_` moves
    refine ⟨rfl, by dsimp only; omega, by dsimp only; omega, by dsimp only; omega, ?_⟩
    have h4 := h.held
    rwa [show q.toNat - (q - ((b.filePos : ℤ) - b.buf.length)).toNat = p - b.pos by omega]
  · exact ⟨rfl, le_rfl, Nat.zero_le _, rfl, Bytes.HasAt.nil⟩

/-- One operation answers like the cursor and keeps tracking it. -/
theorem step_refines (hfile : file.Serves contents) (hsize : 1 ≤ size) {fuel : ℕ}
    (hfuel : contents.length < fuel) (h : Tracks contents b p) (op : Op) :
    ∃ b', step file size fuel b op = .ok ((cursorStep contents p op).1, b') ∧
      Tracks contents b' (cursorStep contents p op).2 := by
  cases op with
  | readNBytes n =>
    rcases lt_or_ge n 0 with hn | hn
    · refine ⟨b, ?_, by simpa [cursorStep, hn] using h⟩
      simp [step, readNBytes, cursorStep, hn, h.tell_eq]
    · obtain ⟨b', hread, h'⟩ := readNBytes_spec hfile hsize hfuel hn h
      refine ⟨b', ?_, by simpa [cursorStep, Int.not_lt.mpr hn] using h'⟩
      simp [step, hread, cursorStep, Int.not_lt.mpr hn, h'.tell_eq]
  | skipNBytes n =>
    rcases lt_or_ge n 0 with hn | hn
    · refine ⟨b, ?_, by simpa [cursorStep, hn] using h⟩
      simp [step, skipNBytes, cursorStep, hn, h.tell_eq]
    · obtain ⟨b', hskip, h'⟩ := skipNBytes_spec hfile hsize hfuel hn h
      refine ⟨b', ?_, by simpa [cursorStep, Int.not_lt.mpr hn] using h'⟩
      simp [step, hskip, cursorStep, Int.not_lt.mpr hn, h'.tell_eq]
  | seek q =>
    rcases lt_or_ge q 0 with hq | hq
    · refine ⟨b, ?_, by simpa [cursorStep, hq] using h⟩
      simp [step, seek, cursorStep, hq, h.tell_eq]
    · obtain ⟨hok, h'⟩ := seek_spec h hq
      refine ⟨(seek q b).2, ?_, by simpa [cursorStep, Int.not_lt.mpr hq] using h'⟩
      simp [step, hok, cursorStep, Int.not_lt.mpr hq, h'.tell_eq, Int.toNat_of_nonneg hq]
  | tell => exact ⟨b, by simp [step, cursorStep, h.tell_eq], h⟩
  | readLine =>
    obtain ⟨b', hline, h'⟩ :=
      readLineLoop_spec hfile hsize fuel (.inl rfl) [] h (show contents.length - p < fuel by omega)
    rw [List.nil_append, ← readLine] at hline
    refine ⟨b', ?_, ?_⟩
    · by_cases hends : lineEnds contents p
      · simp [step, hline, cursorStep, hends, lineStatus, h'.tell_eq, lineStep, Nat.add_assoc]
      · simp [step, hline, cursorStep, hends, lineStatus, h'.tell_eq, lineStep]
    · by_cases hends : lineEnds contents p
      · simpa [cursorStep, hends, lineStep, Nat.add_assoc] using h'
      · simpa [cursorStep, hends, lineStep] using h'

end LearnNetlib.InputBuffer
