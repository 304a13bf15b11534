import LearnNetlib.Io.InputStream

/-!
# `io::BufferedInputStream`

A buffer of `size` bytes in front of any input stream.

* `fillBuffer`, `readLineHelper`, `readNBytes`, `skipNBytes`, `seek`, `tell`, `reset` — the code of
  `base/io/buffered_inputstream.cc`, with every access to `buf_` a checked read;
* `cursorStep` — what it is for: a position between 0 and the size;
* `Tracks` — the invariant: the stream below is as far ahead as there are unread bytes;
* `readLoop_spec`, `readLineLoop_spec`, `skipNBytes_spec`, `seek_spec` — one lemma per operation;
* `bufferedInputStream_delivers` — a buffer over a stream that delivers its contents delivers them;
* **`bufferedInputStream_refines_cursor`** — over a file that does not fail, every run of operations
  answers exactly like the cursor.
-/

namespace LearnNetlib.BufferedInputStream

open LearnNetlib.Runs LearnNetlib.Stream
open InputBuffer (Out window window_add window_length_le lineAt lineText lineEnds lineStep
  lineAt_newline lineAt_of_length_le lineEnds_cons lineEnds_newline not_lineEnds_of_length_le
  append_lineText_cons add_lineStep_cons)

/-! ### The code -/

/-- The stream below, `buf_`, `pos_` and `limit_`. -/
structure State (σ : Type) where
  inner : σ
  buf : Bytes
  pos : ℕ
  limit : ℕ

/-- The constructor. -/
def init {σ : Type} (inner : σ) : State σ := ⟨inner, [], 0, 0⟩

section

variable {σ : Type} (stream : InputStreamInterface σ) (size : ℕ)

/-- `FillBuffer`. -/
def fillBuffer (b : State σ) : Access (Status × State σ) := do
  let (s, buf, inner) ← stream.readNBytes size b.inner
  return (s, { inner := inner, buf := buf, pos := 0, limit := buf.length })

/-- The head of both loops: `if (pos_ == limit_) { s = FillBuffer(); if (limit_ == 0) break; }`; the
last component says that the loop was left. -/
def refill (s : Status) (b : State σ) : Access (Status × State σ × Bool) :=
  if b.pos = b.limit then do
    let (s, b) ← fillBuffer stream size b
    return (s, b, b.limit = 0)
  else .ok (s, b, false)

/-- The loop of `ReadLineHelper`, and what follows it. -/
def readLineLoop (includeEol : Bool) :
    ℕ → Status → (result : Bytes) → State σ → Access (Status × Bytes × State σ)
  | 0, _, _, _ => .error .stillRunning
  | fuel + 1, s, result, b => do
    let (s, b, left) ← refill stream size s b
    if left then
      if Errors.isOutOfRange s ∧ result ≠ [] then return (.ok, result, b) else return (s, result, b)
    else
      let c ← readByte b.buf b.pos
      let b := { b with pos := b.pos + 1 }
      if c = 0x0a then return (.ok, if includeEol then result ++ [c] else result, b)
      else
        -- We don't append '\r' to *result
        readLineLoop includeEol fuel s (if c ≠ 0x0d then result ++ [c] else result) b

/-- `ReadLineHelper`. -/
def readLineHelper (includeEol : Bool) (fuel : ℕ) (b : State σ) :
    Access (Status × Bytes × State σ) :=
  readLineLoop stream size includeEol fuel .ok [] b

/-- The loop of `ReadNBytes`. -/
def readLoop (n : ℕ) : ℕ → Status → (result : Bytes) → State σ → Access (Status × Bytes × State σ)
  | 0, _, _, _ => .error .stillRunning
  | fuel + 1, s, result, b =>
    if result.length < n then do
      let (s, b, left) ← refill stream size s b
      if left then return (s, result, b)
      else
        let bytesToCopy := min (b.limit - b.pos) (n - result.length)
        let chunk ← readBytes b.buf b.pos bytesToCopy
        readLoop n fuel s (result ++ chunk) { b with pos := b.pos + bytesToCopy }
    else .ok (s, result, b)

/-- `ReadNBytes`. -/
def readNBytes (fuel : ℕ) (bytesToRead : ℤ) (b : State σ) : Access (Status × Bytes × State σ) :=
  if bytesToRead < 0 then
    .ok (Errors.invalidArgument s!"Can't read a negative number of bytes: {bytesToRead}", [], b)
  else do
    let (s, result, b) ← readLoop stream size bytesToRead.toNat fuel .ok [] b
    if Errors.isOutOfRange s ∧ result.length = bytesToRead.toNat then
      return (.ok, result, b)
    else
      return (s, result, b)

/-- `SkipNBytes`. -/
def skipNBytes (bytesToSkip : ℤ) (b : State σ) : Access (Status × State σ) :=
  if bytesToSkip < 0 then
    .ok (Errors.invalidArgument s!"Can only skip forward, not {bytesToSkip}", b)
  else if b.pos + bytesToSkip < b.limit then
    -- If we aren't skipping too much, then we can just move pos_;
    .ok (.ok, { b with pos := b.pos + bytesToSkip.toNat })
  else do
    -- Otherwise, we already have read limit_ - pos_, so skip the rest.
    let (s, inner) ← stream.skipNBytes (bytesToSkip - (b.limit - b.pos : ℕ)) b.inner
    return (s, { b with inner := inner, pos := 0, limit := 0 })

/-- `Tell`. -/
def tell (b : State σ) : ℤ := stream.tell b.inner - ((b.limit : ℤ) - b.pos)

/-- `Reset`. -/
def reset (b : State σ) : Access (Status × State σ) := do
  let (s, inner) ← stream.reset b.inner
  if s.isOk then return (.ok, { b with inner := inner, pos := 0, limit := 0 })
  else return (s, { b with inner := inner })

/-- `Seek`. -/
def seek (position : ℤ) (b : State σ) : Access (Status × State σ) :=
  if position < 0 then
    .ok (Errors.invalidArgument s!"Seeking to a negative position: {position}", b)
  else
    -- Position of the buffer within file.
    let bufpos := tell stream b
    if position < bufpos then do
      -- Reset input stream and skip 'position' bytes.
      let (s, b) ← reset stream b
      if s.isOk then skipNBytes stream position b else return (s, b)
    else skipNBytes stream (position - bufpos) b

/-- A `BufferedInputStream` is an input stream. -/
def bufferedInputStream (fuel : ℕ) : InputStreamInterface (State σ) where
  readNBytes := readNBytes stream size fuel
  skipNBytes := skipNBytes stream
  tell := tell stream
  reset := reset stream

end

/-! ### Operations and what the caller sees -/

inductive Op
  | readNBytes (n : ℤ)
  | skipNBytes (n : ℤ)
  | seek (q : ℤ)
  | reset
  | tell
  | readLine
  | readLineAsString
  deriving Repr, DecidableEq

/-- One call on the stream: the status, the bytes it returned, and `Tell()` afterwards. -/
def step {σ : Type} (stream : InputStreamInterface σ) (size fuel : ℕ) (b : State σ) :
    Op → Access (Out × State σ)
  | .readNBytes n => do
    let (s, data, b) ← readNBytes stream size fuel n b
    return (⟨s, data, tell stream b⟩, b)
  | .skipNBytes n => do
    let (s, b) ← skipNBytes stream n b
    return (⟨s, [], tell stream b⟩, b)
  | .seek q => do
    let (s, b) ← seek stream q b
    return (⟨s, [], tell stream b⟩, b)
  | .reset => do
    let (s, b) ← reset stream b
    return (⟨s, [], tell stream b⟩, b)
  | .tell => .ok (⟨.ok, [], tell stream b⟩, b)
  | .readLine => do
    let (s, data, b) ← readLineHelper stream size false fuel b
    return (⟨s, data, tell stream b⟩, b)
  | .readLineAsString => do
    -- the status is dropped
    let (_, data, b) ← readLineHelper stream size true fuel b
    return (⟨.ok, data, tell stream b⟩, b)

/-! ### The plain cursor -/

/-- Where a cursor that is sent to `target` stops, and whether it gets there. -/
def moveTo (contents : Bytes) (target : ℕ) : Out × ℕ :=
  let p := min target contents.length
  (⟨if target ≤ contents.length then .ok else reachedEnd, [], p⟩, p)

/-- The line in front of a cursor, as `ReadLineAsString` returns it. -/
def lineString (contents : Bytes) (p : ℕ) (includeEol : Bool) : Bytes :=
  lineText contents p ++ if includeEol ∧ lineEnds contents p then [0x0a] else []

/-- One operation of a cursor `p` in `[0, size]`. -/
def cursorStep (contents : Bytes) (p : ℕ) : Op → Out × ℕ
  | .readNBytes n =>
    if n < 0 then
      (⟨Errors.invalidArgument s!"Can't read a negative number of bytes: {n}", [], p⟩, p)
    else
      let target := p + n.toNat
      let p' := min target contents.length
      (⟨if target ≤ contents.length then .ok else reachedEnd, window contents p n.toNat, p'⟩, p')
  | .skipNBytes n =>
    if n < 0 then (⟨Errors.invalidArgument s!"Can only skip forward, not {n}", [], p⟩, p)
    else moveTo contents (p + n.toNat)
  | .seek q =>
    if q < 0 then (⟨Errors.invalidArgument s!"Seeking to a negative position: {q}", [], p⟩, p)
    else moveTo contents q.toNat
  | .reset => (⟨.ok, [], 0⟩, 0)
  | .tell => (⟨.ok, [], p⟩, p)
  | .readLine =>
    let text := lineText contents p
    let p' := p + lineStep contents p
    (⟨if ¬ lineEnds contents p ∧ text = [] then reachedEnd else .ok, text, p'⟩, p')
  | .readLineAsString =>
    let p' := p + lineStep contents p
    (⟨.ok, lineString contents p true, p'⟩, p')

/-! ### The invariant -/

/-- The stream below is as far ahead of the cursor `p` as there are unread bytes, and these are the
ones in front of the cursor. -/
structure Tracks {σ : Type} (contents : Bytes) (At : ℕ → σ → Prop) (b : State σ) (p : ℕ) : Prop where
  pos_le : b.pos ≤ b.limit
  limit_le : b.limit ≤ b.buf.length
  inner : At (p + (b.limit - b.pos)) b.inner
  unread : (b.buf.drop b.pos).take (b.limit - b.pos) = window contents p (b.limit - b.pos)

section

variable {σ : Type} {stream : InputStreamInterface σ} {contents : Bytes} {At : ℕ → σ → Prop}
  {b : State σ} {p size fuel : ℕ}

theorem tracks_empty {inner : σ} (buf : Bytes) (h : At p inner) :
    Tracks contents At ⟨inner, buf, 0, 0⟩ p :=
  ⟨le_rfl, Nat.zero_le _, h, by simp [window]⟩

theorem Tracks.le (hstream : Delivers stream contents At) (h : Tracks contents At b p) :
    p + (b.limit - b.pos) ≤ contents.length :=
  hstream.le h.inner

theorem Tracks.tell_eq (hstream : Delivers stream contents At) (h : Tracks contents At b p) :
    tell stream b = p := by
  have h1 := h.pos_le
  rw [tell, hstream.tell h.inner]
  omega

theorem Tracks.chunk (h : Tracks contents At b p) {k : ℕ} (hk : k ≤ b.limit - b.pos) :
    readBytes b.buf b.pos k = .ok (window contents p k) := by
  have h0 := h.pos_le
  have h1 := h.limit_le
  have h2 := congrArg (List.take k) h.unread
  rw [List.take_take, Nat.min_eq_left hk, window, List.take_take, Nat.min_eq_left hk] at h2
  rw [readBytes_of_le (by omega), h2, window]

theorem Tracks.advance (h : Tracks contents At b p) {k : ℕ} (hk : k ≤ b.limit - b.pos) :
    Tracks contents At { b with pos := b.pos + k } (p + k) := by
  have h1 := h.pos_le
  have h2 := h.limit_le
  have h3 := h.inner
  refine ⟨by dsimp only; omega, h2, ?_, ?_⟩
  · rwa [show p + k + (b.limit - (b.pos + k)) = p + (b.limit - b.pos) by omega]
  · have h4 := congrArg (List.drop k) h.unread
    rw [window, List.drop_take, List.drop_take, List.drop_drop, List.drop_drop, Nat.sub_sub] at h4
    exact h4

theorem Tracks.readByte (hstream : Delivers stream contents At) (h : Tracks contents At b p)
    (hpos : b.pos < b.limit) :
    ∃ c, readByte b.buf b.pos = .ok c ∧ contents.drop p = c :: contents.drop (p + 1) := by
  have h1 := h.limit_le
  have h2 := h.le hstream
  have hp : p < contents.length := by omega
  have h3 := h.chunk (show 1 ≤ b.limit - b.pos by omega)
  rw [readBytes_of_le (by omega), window, List.drop_eq_getElem_cons hp,
    List.drop_eq_getElem_cons (by omega : b.pos < b.buf.length)] at h3
  refine ⟨b.buf[b.pos], readByte_of_lt (by omega), ?_⟩
  simp only [List.take_succ_cons, List.take_zero, Except.ok.injEq, List.cons.injEq, and_true] at h3
  rw [h3, List.drop_eq_getElem_cons hp]

/-! ### The head of the loops -/

/-- The statuses a loop carries around. -/
def Carried (s : Status) : Prop := s = .ok ∨ s = reachedEnd

/-- **Refilling keeps the cursor**: either unread bytes are there, or the stream has ended and the
status says so. -/
theorem refill_spec (hstream : Delivers stream contents At) (hsize : 1 ≤ size) {s : Status}
    (hs : Carried s) (h : Tracks contents At b p) :
    ∃ s' b' left, refill stream size s b = .ok (s', b', left) ∧ Tracks contents At b' p ∧
      Carried s' ∧ (left = true → s' = reachedEnd ∧ contents.length ≤ p) ∧
      (left = false → b'.pos < b'.limit) := by
  rw [refill]
  split_ifs with hpos
  · have hin := h.inner
    rw [hpos, Nat.sub_self, Nat.add_zero] at hin
    obtain ⟨inner, hread, hinner⟩ := hstream.read size hin
    rw [fillBuffer, hread]
    refine ⟨_, _, _, rfl, ⟨Nat.zero_le _, le_rfl, hinner, ?_⟩, ?_, ?_, ?_⟩
    · simp [window, List.take_take]
    · rw [streamStatus]
      split_ifs
      · exact .inl rfl
      · exact .inr rfl
    · intro hleft
      simp only [decide_eq_true_eq, window_length] at hleft
      rw [streamStatus, window_length, if_neg (by omega)]
      exact ⟨rfl, by omega⟩
    · intro hleft
      simp only [decide_eq_false_iff_not] at hleft
      dsimp only
      omega
  · have := h.pos_le
    exact ⟨s, b, false, rfl, h, hs, by simp, fun _ => by omega⟩

/-! ### `ReadNBytes` -/

/-- **The loop of `ReadNBytes`**: it appends the window in front of the cursor and, when that is too
short, reports the end. -/
theorem readLoop_spec (hstream : Delivers stream contents At) (hsize : 1 ≤ size) (n : ℕ) {s : Status}
    (hs : Carried s) (result : Bytes) (hresult : result.length ≤ n) (h : Tracks contents At b p)
    (hfuel : contents.length - p < fuel) :
    ∃ s' b', readLoop stream size n fuel s result b
        = .ok (s', result ++ window contents p (n - result.length), b') ∧
      Tracks contents At b' (p + (window contents p (n - result.length)).length) ∧ Carried s' ∧
      (result.length + (window contents p (n - result.length)).length < n → s' = reachedEnd) := by
  induction fuel generalizing s result b p with
  | zero => omega
  | succ fuel ih =>
    rw [readLoop]
    split_ifs with hlt
    · obtain ⟨s₁, b₁, left, hrefill, h₁, hs₁, hend, hmore⟩ := refill_spec hstream hsize hs h
      rw [hrefill, Access.ok_bind]
      dsimp only
      cases left with
      | true =>
        obtain ⟨heof, hp⟩ := hend rfl
        have hwin : window contents p (n - result.length) = [] :=
          InputBuffer.window_of_length_le hp _
        exact ⟨s₁, b₁, by simp [hwin], by simpa [hwin] using h₁, hs₁, fun _ => heof⟩
      | false =>
        -- one chunk of `k > 0` bytes, then the remaining turns from `p + k`
        have hpos := hmore rfl
        have hin := h₁.le hstream
        obtain ⟨k, m, hk, hkle, hsplit, hmin⟩ : ∃ k m, 0 < k ∧ k ≤ b₁.limit - b₁.pos ∧
            n - result.length = k + m ∧ min (b₁.limit - b₁.pos) (n - result.length) = k :=
          ⟨min (b₁.limit - b₁.pos) (n - result.length),
            n - result.length - min (b₁.limit - b₁.pos) (n - result.length), by omega, by omega,
            by omega, rfl⟩
        have hlen : (window contents p k).length = k := by
          rw [window_length]
          omega
        have hlen' : (result ++ window contents p k).length = result.length + k := by
          rw [List.length_append, hlen]
        have hrest : n - (result.length + k) = m := by omega
        obtain ⟨s₂, b₂, hloop, h₂, hs₂, hshort⟩ :=
          ih hs₁ (result ++ window contents p k) (by omega) (h₁.advance hkle) (by omega)
        rw [hlen', hrest] at hloop h₂ hshort
        have hwin := window_add contents p k m
        rw [if_neg (by decide), hmin, h₁.chunk hkle, Access.ok_bind, hloop]
        refine ⟨s₂, b₂, ?_, ?_, hs₂, ?_⟩
        · rw [hsplit, hwin, List.append_assoc]
        · rw [hsplit, hwin, List.length_append, hlen, ← Nat.add_assoc]
          exact h₂
        · rw [hsplit, hwin, List.length_append, hlen, ← Nat.add_assoc]
          exact hshort
    · have hzero : n - result.length = 0 := by omega
      exact ⟨s, b, by simp [hzero, window], by simpa [hzero, window] using h, hs, by omega⟩

/-- The status `ReadNBytes` ends with. -/
theorem final_status {n got : ℕ} {s : Status} (hs : Carried s) (hgot : got ≤ n)
    (hshort : got < n → s = reachedEnd) :
    (if Errors.isOutOfRange s ∧ got = n then Status.ok else s) = streamStatus n got := by
  rw [streamStatus]
  rcases Nat.lt_or_ge got n with h | h
  · rw [hshort h, if_neg (by omega), if_neg (by omega)]
  · rw [if_pos (show got = n by omega)]
    rcases hs with rfl | rfl
    · simp
    · rw [if_pos ⟨rfl, by omega⟩]

theorem readNBytes_spec (hstream : Delivers stream contents At) (hsize : 1 ≤ size)
    (hfuel : contents.length < fuel) (n : ℕ) (h : Tracks contents At b p) :
    ∃ b', readNBytes stream size fuel n b
        = .ok (streamStatus n (window contents p n).length, window contents p n, b') ∧
      Tracks contents At b' (p + (window contents p n).length) := by
  obtain ⟨s', b', hloop, h', hs', hshort⟩ :=
    readLoop_spec hstream hsize n (.inl rfl) [] (Nat.zero_le _) h
      (show contents.length - p < fuel by omega)
  simp only [List.length_nil, Nat.sub_zero, List.nil_append, Nat.zero_add] at hloop h' hshort
  refine ⟨b', ?_, h'⟩
  rw [readNBytes, if_neg (by omega), Int.toNat_natCast, hloop, Access.ok_bind,
    ← final_status hs' (window_length_le _ _ _) hshort]
  dsimp only
  split_ifs <;> rfl

/-! ### `SkipNBytes`, `Reset` and `Seek` -/

theorem skipNBytes_spec (hstream : Delivers stream contents At) (n : ℕ)
    (h : Tracks contents At b p) :
    ∃ b', skipNBytes stream n b = .ok (streamStatus n (window contents p n).length, b') ∧
      Tracks contents At b' (p + (window contents p n).length) := by
  have h1 := h.pos_le
  have h2 := h.le hstream
  rw [skipNBytes, if_neg (by omega)]
  split_ifs with hlt
  · have hlen : (window contents p n).length = n := by
      rw [window_length]
      omega
    rw [hlen, Int.toNat_natCast]
    exact ⟨_, by rw [streamStatus, if_pos rfl], h.advance (by omega)⟩
  · -- the stream below stands `limit_ - pos_` bytes further on
    obtain ⟨rest, hrest⟩ : ∃ rest, n = (b.limit - b.pos) + rest := ⟨n - (b.limit - b.pos), by omega⟩
    obtain ⟨inner, hskip, hinner⟩ := hstream.skip rest h.inner
    rw [show (n : ℤ) - (b.limit - b.pos : ℕ) = (rest : ℕ) by omega, hskip]
    have hlen : (window contents p n).length
        = (b.limit - b.pos) + (window contents (p + (b.limit - b.pos)) rest).length := by
      simp only [window_length]
      omega
    refine ⟨_, ?_, tracks_empty b.buf (by rwa [hlen, ← Nat.add_assoc])⟩
    rw [hlen, hrest, streamStatus, streamStatus, Access.ok_bind]
    simp only [Nat.add_right_inj]
    rfl

theorem reset_spec (hstream : Delivers stream contents At) (h : Tracks contents At b p) :
    ∃ b', reset stream b = .ok (.ok, b') ∧ Tracks contents At b' 0 := by
  obtain ⟨inner, hreset, hinner⟩ := hstream.reset h.inner
  exact ⟨_, by rw [reset, hreset]; rfl, tracks_empty b.buf hinner⟩

/-- A move goes to the target or to the end, forwards or backwards. -/
theorem seek_spec (hstream : Delivers stream contents At) (q : ℕ) (h : Tracks contents At b p) :
    ∃ b', seek stream q b
        = .ok (if q ≤ contents.length then .ok else reachedEnd, b') ∧
      Tracks contents At b' (min q contents.length) := by
  have hp : p ≤ contents.length := le_trans (Nat.le_add_right _ _) (h.le hstream)
  rw [seek, if_neg (by omega), h.tell_eq hstream]
  dsimp only
  by_cases hback : (q : ℤ) < p
  · obtain ⟨b₀, hreset, h₀⟩ := reset_spec hstream h
    obtain ⟨b', hskip, h'⟩ := skipNBytes_spec hstream q h₀
    rw [streamStatus_window (Nat.zero_le _), Nat.zero_add] at hskip
    rw [add_window_length (Nat.zero_le _), Nat.zero_add] at h'
    refine ⟨b', ?_, h'⟩
    rw [if_pos hback, hreset, Access.ok_bind]
    exact hskip
  · obtain ⟨d, hd⟩ : ∃ d, q = p + d := ⟨q - p, by omega⟩
    obtain ⟨b', hskip, h'⟩ := skipNBytes_spec hstream d h
    rw [streamStatus_window hp, ← hd] at hskip
    rw [add_window_length hp, ← hd] at h'
    exact ⟨b', by rw [if_neg hback, show (q : ℤ) - p = d by omega, hskip], h'⟩

/-! ### `ReadLine` -/

/-- The status `ReadLineHelper` ends with. -/
def lineStatus (contents : Bytes) (p : ℕ) (text : Bytes) : Status :=
  if ¬ lineEnds contents p ∧ text = [] then reachedEnd else .ok

/-- **The loop of `ReadLineHelper`**: from any cursor it appends the rest of the line. -/
theorem readLineLoop_spec (hstream : Delivers stream contents At) (hsize : 1 ≤ size)
    (includeEol : Bool) {s : Status} (hs : Carried s) (result : Bytes)
    (h : Tracks contents At b p) (hfuel : contents.length - p < fuel) :
    ∃ b', readLineLoop stream size includeEol fuel s result b
        = .ok (lineStatus contents p (result ++ lineText contents p),
            result ++ lineString contents p includeEol, b') ∧
      Tracks contents At b' (p + lineStep contents p) := by
  induction fuel generalizing s result b p with
  | zero => omega
  | succ fuel ih =>
    obtain ⟨s₁, b₁, left, hrefill, h₁, hs₁, hend, hmore⟩ := refill_spec hstream hsize hs h
    rw [readLineLoop, hrefill, Access.ok_bind]
    dsimp only
    cases left with
    | true =>
      obtain ⟨rfl, hp⟩ := hend rfl
      have hline := lineAt_of_length_le hp
      have hends := not_lineEnds_of_length_le hp
      refine ⟨b₁, ?_, by simpa [lineStep, hline, hends] using h₁⟩
      by_cases hres : result = []
      · simp [lineString, lineText, hline, lineStatus, hends, hres]
      · simp [lineString, lineText, hline, lineStatus, hends, hres,
          show Errors.isOutOfRange reachedEnd = true from rfl]
    | false =>
      have hpos := hmore rfl
      obtain ⟨c, hread, hdrop⟩ := h₁.readByte hstream hpos
      have hp : p < contents.length := by
        have := h₁.le hstream
        omega
      have hadv := h₁.advance (show 1 ≤ b₁.limit - b₁.pos by omega)
      rw [if_neg (by decide), hread, Access.ok_bind]
      by_cases hc : c = 0x0a
      · subst hc
        have hline := lineAt_newline hdrop
        have hends := lineEnds_newline hdrop
        refine ⟨{ b₁ with pos := b₁.pos + 1 }, ?_, by simpa [lineStep, hline, hends] using hadv⟩
        cases includeEol <;> simp [lineString, lineText, hline, lineStatus, hends]
      · obtain ⟨b₂, hloop, h₂⟩ :=
          ih hs₁ (if c ≠ 0x0d then result ++ [c] else result) hadv (by omega)
        have hends := lineEnds_cons hdrop hc
        rw [lineString, ← List.append_assoc, append_lineText_cons hdrop hc] at hloop
        rw [add_lineStep_cons hdrop hc] at h₂
        refine ⟨b₂, ?_, h₂⟩
        simp only [hc, if_false, hloop, lineStatus, lineString, hends, List.append_assoc]

/-! ### Runs -/

/-- **A buffer over a stream that delivers its contents delivers them.** -/
theorem bufferedInputStream_delivers (hstream : Delivers stream contents At) (hsize : 1 ≤ size)
    (hfuel : contents.length < fuel) :
    Delivers (bufferedInputStream stream size fuel) contents
      fun p b => Tracks contents At b p where
  le h := le_trans (Nat.le_add_right _ _) (h.le hstream)
  read n h := readNBytes_spec hstream hsize hfuel n h
  skip n h := skipNBytes_spec hstream n h
  negative _ hn := ⟨_, if_pos hn⟩
  tell h := h.tell_eq hstream
  reset h := reset_spec hstream h

/-- One operation answers like the cursor and keeps tracking it. -/
theorem step_refines (hstream : Delivers stream contents At) (hsize : 1 ≤ size)
    (hfuel : contents.length < fuel) (h : Tracks contents At b p) (op : Op) :
    ∃ b', step stream size fuel b op = .ok ((cursorStep contents p op).1, b') ∧
      Tracks contents At b' (cursorStep contents p op).2 := by
  have hp : p ≤ contents.length := le_trans (Nat.le_add_right _ _) (h.le hstream)
  have htell := h.tell_eq hstream
  cases op with
  | readNBytes n =>
    rcases lt_or_ge n 0 with hn | hn
    · refine ⟨b, ?_, by simpa [cursorStep, hn] using h⟩
      simp [step, readNBytes, cursorStep, hn, htell]
    · obtain ⟨n, rfl⟩ := Int.eq_ofNat_of_zero_le hn
      obtain ⟨b', hread, h'⟩ := readNBytes_spec hstream hsize hfuel n h
      rw [add_window_length hp] at h'
      refine ⟨b', ?_, by simpa [cursorStep, Int.not_lt.mpr hn] using h'⟩
      rw [streamStatus_window hp] at hread
      rw [step, hread, Access.ok_bind, cursorStep, if_neg (Int.not_lt.mpr hn)]
      simp [h'.tell_eq hstream]
  | skipNBytes n =>
    rcases lt_or_ge n 0 with hn | hn
    · refine ⟨b, ?_, by simpa [cursorStep, hn] using h⟩
      simp [step, skipNBytes, cursorStep, hn, htell]
    · obtain ⟨n, rfl⟩ := Int.eq_ofNat_of_zero_le hn
      obtain ⟨b', hskip, h'⟩ := skipNBytes_spec hstream n h
      rw [add_window_length hp] at h'
      refine ⟨b', ?_, by simpa [cursorStep, Int.not_lt.mpr hn, moveTo] using h'⟩
      rw [streamStatus_window hp] at hskip
      rw [step, hskip, Access.ok_bind, cursorStep, if_neg (Int.not_lt.mpr hn)]
      simp [moveTo, h'.tell_eq hstream]
  | seek q =>
    rcases lt_or_ge q 0 with hq | hq
    · refine ⟨b, ?_, by simpa [cursorStep, hq] using h⟩
      simp [step, seek, cursorStep, hq, htell]
    · obtain ⟨q, rfl⟩ := Int.eq_ofNat_of_zero_le hq
      obtain ⟨b', hseek, h'⟩ := seek_spec hstream q h
      refine ⟨b', ?_, by simpa [cursorStep, Int.not_lt.mpr hq, moveTo] using h'⟩
      rw [step, hseek, Access.ok_bind, cursorStep, if_neg (Int.not_lt.mpr hq)]
      simp [moveTo, h'.tell_eq hstream]
  | reset =>
    obtain ⟨b', hreset, h'⟩ := reset_spec hstream h
    refine ⟨b', ?_, h'⟩
    rw [step, hreset, Access.ok_bind]
    simp [cursorStep, h'.tell_eq hstream]
  | tell => exact ⟨b, by simp [step, cursorStep, htell], h⟩
  | readLine =>
    obtain ⟨b', hline, h'⟩ := readLineLoop_spec hstream hsize false (.inl rfl) [] h
      (show contents.length - p < fuel by omega)
    refine ⟨b', ?_, h'⟩
    rw [step, readLineHelper, hline, Access.ok_bind]
    simp [cursorStep, lineStatus, lineString, h'.tell_eq hstream]
  | readLineAsString =>
    obtain ⟨b', hline, h'⟩ := readLineLoop_spec hstream hsize true (.inl rfl) [] h
      (show contents.length - p < fuel by omega)
    refine ⟨b', ?_, h'⟩
    rw [step, readLineHelper, hline, Access.ok_bind]
    simp [cursorStep, h'.tell_eq hstream]

end

end LearnNetlib.BufferedInputStream
