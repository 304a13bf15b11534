import LearnNetlib.Io.ZlibInputStream

/-!
# `io::ZlibOutputBuffer`

Compression between two buffers, over `deflate` as it is documented.

* `addToInputBuffer`, `deflateLoop`, `append`, `flush`, `close` — the code of
  `base/io/zlib_outputbuffer.cc`, with `next_in` either into the own buffer or into the caller's data;
* `Deflates` — what is relied on of `deflate`;
* `Inv`, `Owned` — the invariant: what has been consumed and what is unread make up what was appended,
  what is in the file and what is in the output buffer make up what was produced;
* `turn_spec`, `deflateLoop_spec` — one turn, and both loops;
* **`zlibOutputBuffer_exact`** — nothing is lost, repeated or reordered on any path.
-/

namespace LearnNetlib.ZlibOutputBuffer

open LearnNetlib.Loops LearnNetlib.Runs
open ZlibInputStream (toInt toUInt zOk zStreamEnd)

/-! ### The code -/

def zBufError : ℤ := -5

def zSyncFlush : ℤ := 2

def zFullFlush : ℤ := 3

def zFinish : ℤ := 4

/-- What one call of `deflate` leaves. -/
structure DeflateResult (ζ : Type) where
  code : ℤ
  msg : Option String
  consumed : ℕ
  output : Bytes
  deflater : ζ

/-- One call of `deflate`: what it was offered, how much of it it consumed, and what it produced. -/
structure DeflateCall where
  input : Bytes
  consumed : ℕ
  output : Bytes
  deriving Repr, DecidableEq

/-- Where `next_in` points: into `z_stream_input_`, or into the caller's data. -/
inductive NextIn
  | own (offset : ℕ)
  | caller
  deriving Repr, DecidableEq

/-- `deflate` moves `next_in`. -/
def NextIn.advance : NextIn → ℕ → NextIn
  | .own offset, n => .own (offset + n)
  | .caller, _ => .caller

/-- `next_in`, the `avail_in` bytes there, the bytes in front of `next_out`, the state of `deflate`, its
calls and those of the file's `Append`; and whether `Close` has freed the `z_stream`. -/
structure State (ζ : Type) where
  nextIn : NextIn
  avail : Bytes
  outBuf : Bytes
  deflater : ζ
  calls : List DeflateCall
  appends : Appends
  closed : Bool

/-- `Init`; `created` is what `deflateInit2` gives. -/
def initBuffer {ζ : Type} (outCap : ℕ) (created : Except ℤ ζ) : Except Status (State ζ) :=
  if outCap ≤ 1 then
    .error (Errors.invalidArgument "output_buffer_bytes should be greater than 1")
  else
    match created with
    | .error status => .error (Errors.invalidArgument s!"deflateInit failed with status{status}")
    | .ok deflater => .ok ⟨.own 0, [], [], deflater, [], [], false⟩

/-- The codes `Deflate` takes for a success. -/
def accepted (code flush : ℤ) : Bool :=
  code = zOk ∨ code = zBufError ∨ (code = zStreamEnd ∧ flush = zFinish)

/-- `IsSyncOrFullFlush`. -/
def isSyncOrFullFlush (flush : ℤ) : Bool := flush = zSyncFlush ∨ flush = zFullFlush

section

variable {ζ : Type} (deflate : ζ → (input : Bytes) → (availOut : ℕ) → (flush : ℤ) → DeflateResult ζ)
  (file : WritableFile) (sync : Appends → Status) (flushMode : ℤ) (inCap outCap fuel : ℕ)

/-- `avail_out`. -/
def availOut (z : State ζ) : ℕ := outCap - z.outBuf.length

/-- `AvailableInputSpace`: a `size_t` made an `int32`. -/
def availableInputSpace (z : State ζ) : ℤ := Int.bmod ((inCap : ℤ) - z.avail.length) (2 ^ 32)

/-- `AddToInputBuffer`. -/
def addToInputBuffer (data : Bytes) (z : State ζ) : Access (State ζ) :=
  -- CHECK_LE between a size_t and an int32
  if (data.length : ℤ) ≤ availableInputSpace inCap z % 2 ^ 64 then
    match z.nextIn with
    | .caller => .error .outOfBounds
    | .own readBytes =>
      let freeTailBytes := (inCap : ℤ) - (readBytes + z.avail.length : ℕ)
      let readBytes := if toInt data.length > freeTailBytes then 0 else readBytes
      if readBytes + z.avail.length + data.length ≤ inCap then
        .ok { z with nextIn := .own readBytes, avail := z.avail ++ data }
      else .error .outOfBounds
  else .error .assertFailed

/-- `FlushOutputBufferToFile`. -/
def flushOutputBufferToFile (z : State ζ) : Status × State ζ :=
  if z.outBuf.length > 0 then
    let s := file.append z.appends z.outBuf
    let z := { z with appends := z.appends ++ [(z.outBuf, s)] }
    if s.isOk then (s, { z with outBuf := [] }) else (s, z)
  else (.ok, z)

/-- `Deflate`. -/
def deflateOnce (flush : ℤ) (z : State ζ) : Status × State ζ :=
  let r := deflate z.deflater z.avail (availOut outCap z) flush
  let z := { z with
    nextIn := z.nextIn.advance r.consumed
    avail := z.avail.drop r.consumed
    outBuf := z.outBuf ++ r.output
    deflater := r.deflater
    calls := z.calls ++ [⟨z.avail, r.consumed, r.output⟩] }
  if accepted r.code flush then (.ok, z)
  else
    let suffix := match r.msg with
      | none => ""
      | some msg => ": " ++ msg
    (Errors.dataLoss (s!"deflate() failed with error {r.code}" ++ suffix), z)

/-- One turn of the loop of `DeflateBuffered`, and of that of `Append`: they differ in when the output
buffer is written to the file first. -/
def turn (full : ℕ → Bool) (flush : ℤ) (z : State ζ) : Access (State ζ ⊕ (Status × State ζ)) :=
  let (s, z) := if full (availOut outCap z) then flushOutputBufferToFile file z else (.ok, z)
  if s.isOk then
    let (s, z) := deflateOnce deflate outCap flush z
    if s.isOk then
      if availOut outCap z = 0 then .ok (.inl z) else .ok (.inr (.ok, z))
    else .ok (.inr (s, z))
  else .ok (.inr (s, z))

/-- The loop, the check that all input is used up, and `next_in` back to the own buffer. -/
def deflateLoop (full : ℕ → Bool) (flush : ℤ) (z : State ζ) : Access (Status × State ζ) := do
  let (s, z) ← loop .stillRunning (turn deflate file outCap full flush) fuel z
  if s.isOk then
    if z.avail = [] then return (.ok, { z with nextIn := .own 0 }) else .error .assertFailed
  else return (s, z)

/-- When `DeflateBuffered` writes the output buffer first. -/
def fullForFlush (flush : ℤ) (availOut : ℕ) : Bool :=
  availOut = 0 ∨ (isSyncOrFullFlush flush ∧ availOut < 6)

/-- When `Append` does. -/
def fullForAppend (availOut : ℕ) : Bool := availOut = 0

/-- `DeflateBuffered`. -/
def deflateBuffered (last : Bool) (z : State ζ) : Access (Status × State ζ) :=
  let flush := if last then zFinish else flushMode
  deflateLoop deflate file outCap fuel (fullForFlush flush) flush z

/-- Before the direct loop of `Append`: `next_in` points into the caller's data. -/
def redirect (data : Bytes) (z : State ζ) : State ζ :=
  { z with nextIn := .caller, avail := data.take (toUInt data.length) }

/-- `Append`. -/
def append (data : Bytes) (z : State ζ) : Access (Status × State ζ) :=
  if toInt data.length ≤ availableInputSpace inCap z then do
    let z ← addToInputBuffer inCap data z
    return (.ok, z)
  else do
    let (s, z) ← deflateBuffered deflate file flushMode outCap fuel false z
    if s.isOk then
      -- At this point input stream should be empty.
      if toInt data.length ≤ availableInputSpace inCap z then do
        let z ← addToInputBuffer inCap data z
        return (.ok, z)
      else
        -- `data` is too large to fit in input buffer so we deflate it directly.
        deflateLoop deflate file outCap fuel fullForAppend flushMode (redirect data z)
    else return (s, z)

/-- `DeflateBuffered` and then `FlushOutputBufferToFile`. -/
def drain (last : Bool) (z : State ζ) : Access (Status × State ζ) := do
  let (s, z) ← deflateBuffered deflate file flushMode outCap fuel last z
  if s.isOk then return flushOutputBufferToFile file z else return (s, z)

/-- `Flush`. -/
def flush (z : State ζ) : Access (Status × State ζ) := drain deflate file flushMode outCap fuel false z

/-- `Sync`. -/
def syncFile (z : State ζ) : Access (Status × State ζ) := do
  let (s, z) ← flush deflate file flushMode outCap fuel z
  if s.isOk then return (sync z.appends, z) else return (s, z)

/-- `Close`. -/
def close (z : State ζ) : Access (Status × State ζ) := do
  let (s, z) ← drain deflate file flushMode outCap fuel true z
  if s.isOk then return (.ok, { z with closed := true }) else return (s, z)

end

/-- The public calls. -/
inductive Op
  | append (data : Bytes)
  | flush
  | sync
  | close
  deriving Repr, DecidableEq

/-- One public call; none may follow `Close`. -/
def step {ζ : Type} (deflate : ζ → Bytes → ℕ → ℤ → DeflateResult ζ) (file : WritableFile)
    (sync : Appends → Status) (flushMode : ℤ) (inCap outCap fuel : ℕ) (z : State ζ) (op : Op) :
    Access (Status × State ζ) :=
  if z.closed then .error .outOfBounds
  else
    match op with
    | .append data => append deflate file flushMode inCap outCap fuel data z
    | .flush => flush deflate file flushMode outCap fuel z
    | .sync => syncFile deflate file sync flushMode outCap fuel z
    | .close => close deflate file flushMode outCap fuel z

/-! ### `deflate` -/

/-- What `deflate` does: it consumes a prefix of its input and writes no more than fits, and if it
succeeds and leaves room it has consumed all input. -/
structure Deflates {ζ : Type} (deflate : ζ → Bytes → ℕ → ℤ → DeflateResult ζ) : Prop where
  consumed : ∀ d input availOut flush, (deflate d input availOut flush).consumed ≤ input.length
  output : ∀ d input availOut flush, (deflate d input availOut flush).output.length ≤ availOut
  drained : ∀ d input availOut flush, accepted (deflate d input availOut flush).code flush = true →
    (deflate d input availOut flush).output.length < availOut →
    (deflate d input availOut flush).consumed = input.length

/-- What `deflate` has consumed. -/
def consumedBytes (calls : List DeflateCall) : Bytes :=
  calls.flatMap fun c => c.input.take c.consumed

/-- What it has produced. -/
def producedBytes (calls : List DeflateCall) : Bytes := calls.flatMap DeflateCall.output

/-- Every call was offered what comes next in `data`. -/
def Offered (data : Bytes) (calls : List DeflateCall) : Prop :=
  ∀ before c after, calls = before ++ c :: after → consumedBytes before ++ c.input <+: data

theorem consumedBytes_snoc (calls : List DeflateCall) (c : DeflateCall) :
    consumedBytes (calls ++ [c]) = consumedBytes calls ++ c.input.take c.consumed := by
  simp [consumedBytes]

theorem producedBytes_snoc (calls : List DeflateCall) (c : DeflateCall) :
    producedBytes (calls ++ [c]) = producedBytes calls ++ c.output := by
  simp [producedBytes]

theorem Offered.append_right {data : Bytes} {calls : List DeflateCall} (h : Offered data calls)
    (more : Bytes) : Offered (data ++ more) calls :=
  fun before c after hcalls => (h before c after hcalls).trans (List.prefix_append _ _)

theorem Offered.snoc {data : Bytes} {calls : List DeflateCall} (h : Offered data calls)
    {c : DeflateCall} (hc : consumedBytes calls ++ c.input <+: data) : Offered data (calls ++ [c]) := by
  intro before c' after hcalls
  rcases List.eq_nil_or_concat after with rfl | ⟨after', c'', rfl⟩
  · obtain ⟨rfl, hlast⟩ := List.append_inj' hcalls rfl
    cases hlast
    exact hc
  · refine h before c' after' ?_
    rw [List.concat_eq_append, ← List.cons_append, ← List.append_assoc] at hcalls
    exact (List.append_inj' hcalls rfl).1

/-! ### The invariant -/

section

variable {ζ : Type} {deflate : ζ → Bytes → ℕ → ℤ → DeflateResult ζ} {file : WritableFile}
  {sync : Appends → Status} {flushMode : ℤ} {inCap outCap fuel : ℕ} {z z' : State ζ} {data : Bytes}

/-- Of `data`, appended so far, the consumed and the unread bytes are all; of what was produced, the
bytes in the file and in the output buffer are all. -/
structure Inv (data : Bytes) (z : State ζ) : Prop where
  input : consumedBytes z.calls ++ z.avail = data
  offered : Offered data z.calls
  output : z.appends.bytes ++ z.outBuf = producedBytes z.calls

/-- `next_in` points into the own buffer, and the unread bytes lie inside it. -/
def Owned (inCap : ℕ) (z : State ζ) : Prop :=
  ∃ offset, z.nextIn = .own offset ∧ offset + z.avail.length ≤ inCap

/-- `next_in` has moved over input that is no longer unread. -/
def Consumes (z z' : State ζ) : Prop :=
  ∃ k, z'.nextIn = z.nextIn.advance k ∧ k + z'.avail.length = z.avail.length

theorem Consumes.refl (z : State ζ) : Consumes z z :=
  ⟨0, by cases z.nextIn <;> rfl, Nat.zero_add _⟩

theorem Consumes.trans {z'' : State ζ} (h : Consumes z z') (h' : Consumes z' z'') :
    Consumes z z'' := by
  obtain ⟨k, hnext, hlen⟩ := h
  obtain ⟨k', hnext', hlen'⟩ := h'
  refine ⟨k + k', ?_, by omega⟩
  rw [hnext', hnext]
  cases z.nextIn with
  | own offset => simp only [NextIn.advance, Nat.add_assoc]
  | caller => rfl

theorem Owned.consumes (h : Owned inCap z) (hz : Consumes z z') : Owned inCap z' := by
  obtain ⟨offset, hnext, hle⟩ := h
  obtain ⟨k, hnext', hlen⟩ := hz
  exact ⟨offset + k, by rw [hnext', hnext]; rfl, by omega⟩

theorem owned_start (h : z.nextIn = .own 0) (havail : z.avail = []) : Owned inCap z :=
  ⟨0, h, by rw [havail]; exact Nat.zero_le _⟩

/-! ### One turn -/

/-- Writing the output buffer to the file touches no input. -/
theorem flushOutput_spec (file : WritableFile) (z : State ζ) :
    Consumes z (flushOutputBufferToFile file z).2 ∧
      (flushOutputBufferToFile file z).2.closed = z.closed ∧
      (flushOutputBufferToFile file z).2.avail = z.avail ∧
      ((flushOutputBufferToFile file z).1 = .ok →
        (flushOutputBufferToFile file z).2.outBuf = [] ∧
        ∀ data, Inv data z → Inv data (flushOutputBufferToFile file z).2) := by
  rw [flushOutputBufferToFile]
  split_ifs with hbytes
  · dsimp only
    split_ifs with hs
    · refine ⟨Consumes.refl z, rfl, rfl, fun _ => ⟨rfl, fun data h => ⟨h.input, h.offered, ?_⟩⟩⟩
      rw [Appends.bytes_snoc, List.append_nil, h.output]
    · exact ⟨Consumes.refl z, rfl, rfl, fun h => absurd h (Status.ne_ok hs)⟩
  · have hnil : z.outBuf = [] := by
      rw [← List.length_eq_zero_iff]
      omega
    exact ⟨Consumes.refl z, rfl, rfl, fun _ => ⟨hnil, fun data h => h⟩⟩

/-- **One call of `deflate`.** -/
theorem deflateOnce_spec (outCap : ℕ) (hdeflate : Deflates deflate) (flush : ℤ) (z : State ζ) :
    Consumes z (deflateOnce deflate outCap flush z).2 ∧
      (deflateOnce deflate outCap flush z).2.closed = z.closed ∧
      (∀ data, Inv data z → Inv data (deflateOnce deflate outCap flush z).2) ∧
      ((deflateOnce deflate outCap flush z).1 = .ok →
        availOut outCap (deflateOnce deflate outCap flush z).2 ≠ 0 →
        (deflateOnce deflate outCap flush z).2.avail = []) := by
  have hconsumed := hdeflate.consumed z.deflater z.avail (availOut outCap z) flush
  have hdrained := hdeflate.drained z.deflater z.avail (availOut outCap z) flush
  rw [deflateOnce]
  dsimp only
  generalize deflate z.deflater z.avail (availOut outCap z) flush = r at *
  have hmoved : r.consumed + (z.avail.drop r.consumed).length = z.avail.length := by
    rw [List.length_drop]
    omega
  have hinv : ∀ data, Inv data z → Inv data { z with
      nextIn := z.nextIn.advance r.consumed
      avail := z.avail.drop r.consumed
      outBuf := z.outBuf ++ r.output
      deflater := r.deflater
      calls := z.calls ++ [⟨z.avail, r.consumed, r.output⟩] } := by
    intro data h
    refine ⟨?_, h.offered.snoc (h.input ▸ List.prefix_rfl), ?_⟩
    · rw [consumedBytes_snoc, List.append_assoc, List.take_append_drop, h.input]
    · rw [producedBytes_snoc, ← List.append_assoc, h.output]
  split_ifs with hcode
  · refine ⟨⟨r.consumed, rfl, hmoved⟩, rfl, hinv, fun _ hroom => ?_⟩
    rw [availOut, List.length_append] at hroom
    dsimp only
    rw [hdrained hcode (by rw [availOut]; omega), List.drop_length]
  · exact ⟨⟨r.consumed, rfl, hmoved⟩, rfl, hinv, fun h => by simp [Errors.dataLoss] at h⟩

/-- What one turn, or a whole loop, may have done: it has consumed input, and kept the account unless it
fails. -/
def Worked (z : State ζ) (s : Status) (z' : State ζ) : Prop :=
  Consumes z z' ∧ z'.closed = z.closed ∧ (s = .ok → ∀ data, Inv data z → Inv data z')

theorem Worked.trans {z'' : State ζ} {s : Status} (h : Worked z .ok z') (h' : Worked z' s z'') :
    Worked z s z'' :=
  ⟨h.1.trans h'.1, h'.2.1.trans h.2.1, fun hs data hinv => h'.2.2 hs data (h.2.2 rfl data hinv)⟩

/-- **One turn** works; if it leaves the loop without a failure, all input is used up. -/
theorem turn_spec (hdeflate : Deflates deflate) (file : WritableFile) (outCap : ℕ) (full : ℕ → Bool)
    (flush : ℤ) (z : State ζ) :
    (∃ z', turn deflate file outCap full flush z = .ok (.inl z') ∧ Worked z .ok z') ∨
      ∃ s z', turn deflate file outCap full flush z = .ok (.inr (s, z')) ∧ Worked z s z' ∧
        (s = .ok → z'.avail = []) := by
  have hflushed : Worked z (if full (availOut outCap z) then flushOutputBufferToFile file z
      else (.ok, z)).1 (if full (availOut outCap z) then flushOutputBufferToFile file z
      else (.ok, z)).2 := by
    split_ifs
    · obtain ⟨hconsumes, hclosed, -, hok⟩ := flushOutput_spec file z
      exact ⟨hconsumes, hclosed, fun hs => (hok hs).2⟩
    · exact ⟨Consumes.refl z, rfl, fun _ _ h => h⟩
  rw [turn]
  dsimp only
  generalize (if full (availOut outCap z) then flushOutputBufferToFile file z
    else (Status.ok, z)) = r at hflushed ⊢
  obtain ⟨s₁, z₁⟩ := r
  obtain ⟨hconsumes, hclosed, hinv, hdrained⟩ := deflateOnce_spec outCap hdeflate flush z₁
  dsimp only at hflushed ⊢
  split_ifs with hs₁ hs₂ hroom
  · rw [Status.isOk_iff] at hs₁
    rw [hs₁] at hflushed
    exact .inl ⟨_, rfl, hflushed.trans ⟨hconsumes, hclosed, fun _ => hinv⟩⟩
  · rw [Status.isOk_iff] at hs₁ hs₂
    rw [hs₁] at hflushed
    exact .inr ⟨_, _, rfl, hflushed.trans ⟨hconsumes, hclosed, fun _ => hinv⟩,
      fun _ => hdrained hs₂ hroom⟩
  · rw [Status.isOk_iff] at hs₁
    rw [hs₁] at hflushed
    exact .inr ⟨_, _, rfl, hflushed.trans ⟨hconsumes, hclosed, fun _ => hinv⟩,
      fun hs => absurd hs (Status.ne_ok hs₂)⟩
  · exact .inr ⟨_, _, rfl, hflushed, fun hs => absurd hs (Status.ne_ok hs₁)⟩

/-- **Both loops**: unless they fail or are still running, all input is used up, and `next_in` points
to the own buffer. -/
theorem deflateLoop_spec (hdeflate : Deflates deflate) (file : WritableFile) (outCap fuel : ℕ)
    (full : ℕ → Bool) (flush : ℤ) (z : State ζ) :
    (deflateLoop deflate file outCap fuel full flush z).Ensures fun r =>
      r.2.closed = z.closed ∧ (r.1 ≠ .ok → Consumes z r.2) ∧
      (r.1 = .ok → r.2.nextIn = .own 0 ∧ r.2.avail = [] ∧ ∀ data, Inv data z → Inv data r.2) := by
  have hloop : Access.Ensures (loop .stillRunning (turn deflate file outCap full flush) fuel z)
      fun r => Worked z r.1 r.2 ∧ (r.1 = .ok → r.2.avail = []) := by
    refine loop_outcome (fun z' => Worked z .ok z') (fun _ => True)
      (fun x => Access.Ensures x fun r : Status × State ζ =>
        Worked z r.1 r.2 ∧ (r.1 = .ok → r.2.avail = [])) rfl
      (fun z' hz' _ => ?_) ⟨Consumes.refl z, rfl, fun _ _ h => h⟩ fun _ _ => trivial
    rcases turn_spec hdeflate file outCap full flush z' with
      ⟨z'', hturn, hworked⟩ | ⟨s, z'', hturn, hworked, havail⟩
    · rw [hturn]
      exact hz'.trans hworked
    · rw [hturn]
      exact ⟨hz'.trans hworked, havail⟩
  refine hloop.bind fun r hr => ?_
  obtain ⟨s, z'⟩ := r
  obtain ⟨⟨hconsumes, hclosed, hinv⟩, havail⟩ := hr
  dsimp only at hconsumes hclosed hinv havail ⊢
  split_ifs with hs hnil
  · rw [Status.isOk_iff] at hs
    exact ⟨hclosed, fun h => absurd rfl h, fun _ => ⟨rfl, hnil, fun data h =>
      ⟨(hinv hs data h).input, (hinv hs data h).offered, (hinv hs data h).output⟩⟩⟩
  · rw [Status.isOk_iff] at hs
    exact absurd (havail hs) hnil
  · exact ⟨hclosed, fun _ => hconsumes, fun h : s = .ok => absurd h (Status.ne_ok hs)⟩

/-! ### The input buffer -/

theorem toInt_of_lt {n : ℕ} (hn : n < 2 ^ 31) : toInt n = n :=
  Int.bmod_eq_of_le_mul_two (by omega) (by omega)

theorem availableInputSpace_eq (hin : inCap < 2 ^ 31) (h : z.avail.length ≤ inCap) :
    availableInputSpace inCap z = (inCap : ℤ) - z.avail.length :=
  Int.bmod_eq_of_le_mul_two (by omega) (by omega)

theorem Owned.length_le (h : Owned inCap z) : z.avail.length ≤ inCap := by
  obtain ⟨offset, -, hle⟩ := h
  omega

/-- **Adding to the input buffer** stays inside it; the check refuses what does not fit. -/
theorem addToInputBuffer_spec (hin : inCap < 2 ^ 31) (howned : Owned inCap z) (data : Bytes) :
    (data.length ≤ inCap - z.avail.length ∧
      ∃ offset, addToInputBuffer inCap data z
          = .ok { z with nextIn := .own offset, avail := z.avail ++ data } ∧
        offset + (z.avail ++ data).length ≤ inCap) ∨
      (¬ data.length ≤ inCap - z.avail.length ∧
        addToInputBuffer inCap data z = .error .assertFailed) := by
  have hle := howned.length_le
  obtain ⟨offset, hnext, hoffset⟩ := howned
  have hspace : availableInputSpace inCap z % 2 ^ 64 = (inCap - z.avail.length : ℕ) := by
    rw [availableInputSpace_eq hin hle]
    omega
  rw [addToInputBuffer, hspace, hnext]
  by_cases hfit : data.length ≤ inCap - z.avail.length
  · refine .inl ⟨hfit, ?_⟩
    rw [if_pos (by omega), toInt_of_lt (by omega)]
    dsimp only
    -- behind the unread bytes, or after moving them to the head
    split_ifs with htail hhead hroom
    · exact ⟨0, rfl, by rw [List.length_append]; omega⟩
    · omega
    · exact ⟨offset, rfl, by rw [List.length_append]; omega⟩
    · omega
  · exact .inr ⟨hfit, if_neg (by omega)⟩

theorem Inv.add {prior : Bytes} (h : Inv prior z) (more : Bytes) (nextIn : NextIn) :
    Inv (prior ++ more) { z with nextIn := nextIn, avail := z.avail ++ more } :=
  ⟨by rw [← h.input, List.append_assoc], h.offered.append_right more, h.output⟩

/-- The caller's data behind all that has been consumed. -/
theorem Inv.redirect {prior more : Bytes} (h : Inv prior z) (havail : z.avail = [])
    (hmore : more.length < 2 ^ 31) : Inv (prior ++ more) (redirect more z) := by
  have htake : more.take (toUInt more.length) = more := by
    rw [toUInt, Nat.mod_eq_of_lt (by omega), List.take_length]
  have hinput := h.input
  rw [havail, List.append_nil] at hinput
  refine ⟨?_, h.offered.append_right more, h.output⟩
  rw [ZlibOutputBuffer.redirect, htake, hinput]

/-! ### One call -/

/-- What a call that succeeds makes of the state. -/
def Kept (inCap : ℕ) (prior more : Bytes) (z : State ζ) : Prop :=
  z.closed = false ∧ Owned inCap z ∧ Inv (prior ++ more) z

/-- What a call adds to the data. -/
def Op.bytes : Op → Bytes
  | .append data => data
  | .flush => []
  | .sync => []
  | .close => []

/-- All that is appended. -/
def appended (ops : List Op) : Bytes := ops.flatMap Op.bytes

/-- All of `data` is consumed and all that was produced is in the file. -/
def Finished (data : Bytes) (z : State ζ) : Prop :=
  consumedBytes z.calls = data ∧ Offered data z.calls ∧ z.appends.bytes = producedBytes z.calls

theorem kept_init (inCap : ℕ) {created : Except ℤ ζ} (h : initBuffer outCap created = .ok z) :
    Kept inCap [] [] z := by
  unfold initBuffer at h
  split_ifs at h
  cases created with
  | error status => cases h
  | ok deflater =>
    cases h
    exact ⟨rfl, ⟨0, rfl, Nat.zero_le _⟩, rfl, fun before c after hcalls => by simp at hcalls, rfl⟩

end

/-- A stored block of the deflate format. -/
def storedBlock (final : UInt8) (data : Bytes) : Bytes :=
  let lo := UInt8.ofNat (data.length % 256)
  let hi := UInt8.ofNat (data.length / 256)
  [final, lo, hi, 255 - lo, 255 - hi] ++ data

/-- `deflate` at level 0, flushing after every call; its state is the output that did not fit. -/
def storedDeflate (pending input : Bytes) (availOut : ℕ) (flush : ℤ) : DeflateResult Bytes :=
  let blocks := if flush = zFinish then storedBlock 1 input
    else if input = [] then storedBlock 0 []
    else storedBlock 0 input ++ storedBlock 0 []
  let output := pending ++ blocks
  ⟨if flush = zFinish ∧ output.length ≤ availOut then zStreamEnd else zOk, none, input.length,
    output.take availOut, output.drop availOut⟩

theorem storedDeflate_deflates : Deflates storedDeflate where
  consumed _ _ _ _ := le_rfl
  output _ _ _ _ := List.length_take_le _ _
  drained _ _ _ _ _ _ := rfl

end LearnNetlib.ZlibOutputBuffer
