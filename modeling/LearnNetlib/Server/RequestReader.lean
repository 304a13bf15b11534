import LearnNetlib.Server.HandlerContext

/-!
# `rest::RequestReader`

A body comes in as many reads as the network makes of it.

* `RequestReader.new`, `onRead`, `handlePost` — the code of `server/request_reader.cc` and of the POST
  branch of `server/http_server.cc`;
* `receive_completes_iff` — the same from any reader that has not got its length yet;
* **`handlePost_completes_iff`** — the callback gets the body of the announced length exactly if a read
  ends where the body does, and no read before that is empty.
-/

namespace LearnNetlib.Rest

/-! ### The code -/

/-- `MAX_INPUT_BODY_SIZE`. -/
def maxInputBodySize : ℕ := 2 <<< 16

/-- What a read callback is called with: a range, an error, and how much of the range was read. -/
structure ReadResult where
  input : Bytes
  ec : Option AsioError
  bytesTransferred : ℕ
  inBounds : bytesTransferred ≤ input.length

/-- The bytes a read delivers. -/
def ReadResult.data (r : ReadResult) : Bytes := r.input.take r.bytesTransferred

/-- What a reader does: it calls the connection or its callback. -/
inductive Effect
  | conn (call : ConnCall)
  | completed (context : HandlerContext)
  deriving Repr, DecidableEq

/-- `RequestReader`. -/
structure RequestReader where
  context : HandlerContext
  contentLength : ℕ
  deriving Repr, DecidableEq

/-- What the constructor finds in the headers: the first one counts. -/
def findContentLength (headers : List Header) : Except StdException ℕ :=
  match headers.find? fun header => iequals header.name (ascii "content-length") with
  | none => .ok 0
  | some header => stoul header.value

/-- `RequestReader(handler_context, cb)`. -/
def RequestReader.new (context : HandlerContext) : Except StdException RequestReader := do
  let contentLength ← findContentLength context.requestHeaders
  return ⟨context, contentLength⟩

/-- `RequestReader::operator()`; with a reader if that has scheduled another read. -/
def onRead (reader : RequestReader) (r : ReadResult) : List Effect × Option RequestReader :=
  match r.ec with
  | some .eof => ([], none)
  | some .other => ([], none)
  | none =>
    if r.input.isEmpty then ([.completed reader.context], none)
    else
      let requestBody := reader.context.requestBody ++ r.input.take r.bytesTransferred
      let reader := { reader with context := { reader.context with requestBody := requestBody } }
      if requestBody.length > maxInputBodySize then
        ([.conn (.setStatus .badRequest), .conn (.setHeaders [⟨ascii "Connection", ascii "close"⟩]),
          .conn (.write (ascii "Bad Body"))], none)
      else if requestBody.length = reader.contentLength then ([.completed reader.context], none)
      else ([], some reader)

/-- The callbacks a reader gets, as long as it schedules reads. -/
def receive (reader : RequestReader) : List ReadResult → List Effect
  | [] => []
  | r :: rs =>
    (onRead reader r).1 ++
      match (onRead reader r).2 with
      | none => []
      | some reader => receive reader rs

/-- The POST and PUT branch of `RESTHandler::operator()`. -/
def handlePost (headers : List Header) (rs : List ReadResult) : Except StdException (List Effect) := do
  let reader ← RequestReader.new (.ofRequest headers)
  return receive reader rs

/-! ### What the callback gets -/

/-- The bodies that `completed_callback_` is called with. -/
def completedBodies (effects : List Effect) : List Bytes :=
  effects.filterMap fun
    | .completed context => some context.requestBody
    | .conn _ => none

/-- All that is delivered. -/
def delivered (rs : List ReadResult) : Bytes := rs.flatMap ReadResult.data

/-- From `start` bytes on, the reads come to exactly `stop` bytes, and none up to there is empty. -/
def EndsAt (start stop : ℕ) (rs : List ReadResult) : Prop :=
  ∃ pre post, rs = pre ++ post ∧ (∀ r ∈ pre, r.input ≠ []) ∧ start + (delivered pre).length = stop

theorem endsAt_nil {start stop : ℕ} : EndsAt start stop [] ↔ start = stop := by
  constructor
  · rintro ⟨pre, post, h, -, hlen⟩
    obtain ⟨rfl, rfl⟩ := List.append_eq_nil_iff.mp h.symm
    exact hlen
  · intro h
    exact ⟨[], [], rfl, nofun, h⟩

theorem endsAt_cons {start stop : ℕ} (hne : start ≠ stop) {r : ReadResult} {rs : List ReadResult} :
    EndsAt start stop (r :: rs) ↔ r.input ≠ [] ∧ EndsAt (start + r.data.length) stop rs := by
  constructor
  · rintro ⟨pre, post, h, hinputs, hlen⟩
    cases pre with
    | nil => exact absurd hlen hne
    | cons r' pre =>
      obtain ⟨rfl, rfl⟩ := List.cons.inj h
      obtain ⟨hr, hpre⟩ := List.forall_mem_cons.mp hinputs
      refine ⟨hr, pre, post, rfl, hpre, ?_⟩
      rw [delivered, List.flatMap_cons, List.length_append] at hlen
      rw [delivered]
      omega
  · rintro ⟨hr, pre, post, rfl, hpre, hlen⟩
    refine ⟨r :: pre, post, rfl, List.forall_mem_cons.mpr ⟨hr, hpre⟩, ?_⟩
    rw [delivered, List.flatMap_cons, List.length_append]
    rw [delivered] at hlen
    omega

theorem not_endsAt_of_lt {start stop : ℕ} (h : stop < start) (rs : List ReadResult) :
    ¬ EndsAt start stop rs := by
  rintro ⟨pre, post, -, -, hlen⟩
  omega

section

variable {reader : RequestReader} {r : ReadResult} {rs : List ReadResult}

/-- The reader once it has appended a read. -/
def RequestReader.append (reader : RequestReader) (data : Bytes) : RequestReader :=
  { reader with context := { reader.context with requestBody := reader.context.requestBody ++ data } }

theorem onRead_of_empty (hec : r.ec = none) (hempty : r.input = []) :
    onRead reader r = ([.completed reader.context], none) := by
  simp [onRead, hec, hempty]

theorem onRead_of_eq (hec : r.ec = none) (hne : r.input ≠ [])
    (hmax : reader.contentLength ≤ maxInputBodySize)
    (heq : (reader.append r.data).context.requestBody.length = reader.contentLength) :
    onRead reader r = ([.completed (reader.append r.data).context], none) := by
  have hle : ¬ (reader.append r.data).context.requestBody.length > maxInputBodySize := by omega
  rw [onRead, hec]
  dsimp only
  rw [if_neg (by simpa using hne)]
  exact (if_neg hle).trans (if_pos heq)

/-- Where a read ends elsewhere, nothing is completed. -/
theorem onRead_of_ne (hec : r.ec = none) (hne : r.input ≠ [])
    (hlen : (reader.append r.data).context.requestBody.length ≠ reader.contentLength) :
    (completedBodies (onRead reader r).1 = [] ∧ (onRead reader r).2 = none ∧
        maxInputBodySize < (reader.append r.data).context.requestBody.length) ∨
      onRead reader r = ([], some (reader.append r.data)) := by
  have hres : onRead reader r = if (reader.append r.data).context.requestBody.length > maxInputBodySize
      then ([.conn (.setStatus .badRequest), .conn (.setHeaders [⟨ascii "Connection", ascii "close"⟩]),
          .conn (.write (ascii "Bad Body"))], none)
      else if (reader.append r.data).context.requestBody.length = reader.contentLength then
        ([.completed (reader.append r.data).context], none)
      else ([], some (reader.append r.data)) := by
    rw [onRead, hec]
    dsimp only
    rw [if_neg (by simpa using hne)]
    rfl
  rw [hres]
  split_ifs with hmax
  · exact .inl ⟨rfl, rfl, hmax⟩
  · exact .inr rfl

/-- From a reader that has not got its length yet. -/
theorem receive_completes_iff (reader : RequestReader)
    (hlen : reader.context.requestBody.length ≠ reader.contentLength)
    (hmax : reader.contentLength ≤ maxInputBodySize) (hec : ∀ r ∈ rs, r.ec = none)
    (hlong : reader.contentLength ≤ (reader.context.requestBody ++ delivered rs).length) :
    completedBodies (receive reader rs)
        = [(reader.context.requestBody ++ delivered rs).take reader.contentLength] ↔
      EndsAt reader.context.requestBody.length reader.contentLength rs := by
  induction rs generalizing reader with
  | nil => simp [receive, completedBodies, endsAt_nil, hlen]
  | cons r rs ih =>
    obtain ⟨hr, hrs⟩ := List.forall_mem_cons.mp hec
    rw [endsAt_cons hlen, receive]
    by_cases hempty : r.input = []
    · rw [onRead_of_empty hr hempty]
      refine iff_of_false (fun h => hlen ?_) fun h => h.1 hempty
      have hbody : reader.context.requestBody
          = (reader.context.requestBody ++ delivered (r :: rs)).take reader.contentLength := by
        simpa [completedBodies] using h
      rw [hbody, List.length_take]
      omega
    · have hsum : reader.context.requestBody ++ delivered (r :: rs)
          = (reader.append r.data).context.requestBody ++ delivered rs := by
        simp [RequestReader.append, delivered]
      have hnext : (reader.append r.data).context.requestBody.length
          = reader.context.requestBody.length + r.data.length := List.length_append
      rw [hsum] at hlong ⊢
      simp only [hempty, ne_eq, not_false_eq_true, true_and]
      rw [← hnext]
      by_cases heq : (reader.append r.data).context.requestBody.length = reader.contentLength
      · rw [onRead_of_eq hr hempty hmax heq]
        refine iff_of_true ?_ ⟨[], rs, rfl, nofun, heq⟩
        rw [← heq, List.take_left]
        rfl
      · rcases onRead_of_ne hr hempty heq with ⟨hnone, hstop, hlarge⟩ | hgo
        · rw [hstop]
          refine iff_of_false (fun h => ?_) (not_endsAt_of_lt (by omega) rs)
          rw [List.append_nil, hnone] at h
          cases h
        · rw [hgo]
          exact ih (reader.append r.data) heq hmax hrs hlong

end

/-- **The body of the announced length** reaches the callback, once and whole, exactly if the reads come to
that length and none up to there is empty: a read that goes beyond the length leaves the reader waiting or
has the body refused, and an empty one completes a body that is too short. -/
theorem handlePost_completes_iff {headers : List Header} {length : ℕ}
    (hheaders : findContentLength headers = .ok length) (hpos : 1 ≤ length)
    (hmax : length ≤ maxInputBodySize) {rs : List ReadResult} (hec : ∀ r ∈ rs, r.ec = none)
    (hlong : length ≤ (delivered rs).length) :
    (∃ effects, handlePost headers rs = .ok effects ∧
        completedBodies effects = [(delivered rs).take length]) ↔
      EndsAt 0 length rs := by
  have hpost : handlePost headers rs
      = .ok (receive ⟨.ofRequest headers, length⟩ rs) := by
    rw [handlePost, RequestReader.new]
    change (findContentLength headers >>= _) >>= _ = _
    rw [hheaders]
    rfl
  have hreader := receive_completes_iff ⟨.ofRequest headers, length⟩
    (by change 0 ≠ length; omega) hmax hec (by simpa [HandlerContext.ofRequest] using hlong)
  rw [hpost]
  constructor
  · rintro ⟨effects, heffects, hbodies⟩
    cases heffects
    exact hreader.mp hbodies
  · intro hends
    exact ⟨_, rfl, hreader.mpr hends⟩

/-- Two bytes in two reads. -/
theorem handlePost_completes_iff_two :
    (∃ effects, handlePost [⟨ascii "Content-Length", ascii "2"⟩]
          [⟨[0x61], none, 1, le_rfl⟩, ⟨[0x62], none, 1, le_rfl⟩] = .ok effects ∧
        completedBodies effects
          = [(delivered [⟨[0x61], none, 1, le_rfl⟩, ⟨[0x62], none, 1, le_rfl⟩]).take 2]) ↔
      EndsAt 0 2 [⟨[0x61], none, 1, le_rfl⟩, ⟨[0x62], none, 1, le_rfl⟩] :=
  handlePost_completes_iff (by decide) (by decide) (by decide) (by simp) (by decide)

/-- One byte is announced, and a read brings two: the reader goes on waiting. -/
theorem handlePost_not_completed :
    findContentLength [⟨ascii "Content-Length", ascii "1"⟩] = .ok 1 ∧
      ¬ ∃ effects, handlePost [⟨ascii "Content-Length", ascii "1"⟩]
          [⟨[0x61, 0x62], none, 2, le_rfl⟩] = .ok effects ∧
        completedBodies effects = [(delivered [⟨[0x61, 0x62], none, 2, le_rfl⟩]).take 1] := by
  refine ⟨by decide, ?_⟩
  rintro ⟨effects, heffects, hbodies⟩
  have hnone : handlePost [⟨ascii "Content-Length", ascii "1"⟩] [⟨[0x61, 0x62], none, 2, le_rfl⟩]
      = .ok [] := by decide
  rw [hnone] at heffects
  cases heffects
  cases hbodies

end LearnNetlib.Rest
