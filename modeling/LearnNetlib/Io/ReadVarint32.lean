import LearnNetlib.Base.Coding
import LearnNetlib.Io.InputBuffer

/-!
# `InputBuffer::ReadVarint32`

Two decoders, chosen by how many bytes happen to be buffered.

* `readVarint32`, `readVarint32Fallback` — the code;
* `varintCursor` — what the slow path does to a plain cursor; `readVarint32Loop_spec`;
* `getVarintLoop_eq_cursor` — the fast path, while enough bytes are there, does the same but for an
  encoding that is too long (`Overlong`), on which it neither moves nor agrees on the error;
* **`readVarint32_agree_iff`** — two buffers over one file agree throughout a run exactly if they take
  the same path at every encoding that is too long.
-/

namespace LearnNetlib.InputBuffer

open LearnNetlib.Runs

/-! ### The code -/

def kMaxVarint32Bytes : ℕ := 5

/-- `DataLoss("Stored data is too large to be a varint32.")`. -/
def tooLarge : Status := Errors.dataLoss "Stored data is too large to be a varint32."

/-- `scratch & 127`. -/
def payload (scratch : UInt8) : BitVec 32 := (scratch &&& 127).toBitVec.setWidth 32

section

variable (file : RandomAccessFile) (size fuel : ℕ)

/-- The loop of `ReadVarint32Fallback`, over the shifts it goes through. -/
def readVarint32Loop : List ℕ → BitVec 32 → State → Access (Status × BitVec 32 × State)
  | [], result, b => .ok (tooLarge, result, b)
  | shift :: shifts, result, b => do
    let (s, data, b) ← readNBytesInto file size fuel 1 b
    if s.isOk then
      let scratch := data.headD 0
      let result := result ||| (payload scratch <<< shift)
      if scratch &&& 128 = 0 then return (.ok, result, b)
      else readVarint32Loop shifts result b
    else return (s, result, b)

/-- `ReadVarint32Fallback`: `shift` runs over 0, 7, …, 28. -/
def readVarint32Fallback (b : State) : Access (Status × UInt32 × State) := do
  let (s, result, b) ← readVarint32Loop file size fuel (List.range' 0 5 7) 0#32 b
  return (s, UInt32.ofBitVec result, b)

/-- The test in front of the fast path. -/
def Fast (b : State) : Prop := b.pos + kMaxVarint32Bytes ≤ b.buf.length

instance (b : State) : Decidable (Fast b) :=
  inferInstanceAs (Decidable (b.pos + kMaxVarint32Bytes ≤ b.buf.length))

/-- `ReadVarint32`; `result` is what the caller's variable holds. -/
def readVarint32 (result : UInt32) (b : State) : Access (Status × UInt32 × State) :=
  if Fast b then do
    -- Reads strictly from the range [pos_, limit_).
    let r ← getVarint32Ptr b.buf b.pos b.buf.length
    match r with
    | none => return (Errors.outOfRange "Parsed past limit.", result, b)
    | some (value, offset) => return (.ok, value, { b with pos := offset })
  else readVarint32Fallback file size fuel b

end

/-- The operations of an `InputBuffer`, with `ReadVarint32`. -/
inductive VarintOp
  | plain (op : Op)
  | readVarint32 (result : UInt32)
  deriving Repr, DecidableEq

/-- What they show: what the plain ones do, or the status, the variable and `Tell()`. -/
inductive VarintOut
  | plain (out : Out)
  | varint (status : Status) (value : UInt32) (tell : ℤ)
  deriving Repr, DecidableEq

def varintStep (file : RandomAccessFile) (size fuel : ℕ) (b : State) :
    VarintOp → Access (VarintOut × State)
  | .plain op => do
    let (out, b) ← step file size fuel b op
    return (.plain out, b)
  | .readVarint32 result => do
    let (s, value, b) ← readVarint32 file size fuel result b
    return (.varint s value (tell b), b)

/-! ### What the slow path does to a cursor -/

/-- The status, the value and the number of bytes passed over. -/
def varintCursor : List ℕ → BitVec 32 → Bytes → Status × BitVec 32 × ℕ
  | [], result, _ => (tooLarge, result, 0)
  | _ :: _, result, [] => (endOfFile, result, 0)
  | shift :: shifts, result, c :: cs =>
    let result := result ||| (payload c <<< shift)
    if c &&& 128 = 0 then (.ok, result, 1)
    else
      let r := varintCursor shifts result cs
      (r.1, r.2.1, r.2.2 + 1)

/-- At a cursor. -/
def varintAt (contents : Bytes) (p : ℕ) : Status × BitVec 32 × ℕ :=
  varintCursor (List.range' 0 5 7) 0#32 (contents.drop p)

/-- Five bytes that all announce another. -/
def Overlong (contents : Bytes) (p : ℕ) : Prop :=
  kMaxVarint32Bytes ≤ (contents.drop p).length ∧
    ∀ c ∈ (contents.drop p).take kMaxVarint32Bytes, 128 ≤ c.toNat

variable {contents : Bytes} {file : RandomAccessFile} {size fuel : ℕ} {b : State} {p : ℕ}

theorem readNBytesInto_one (hfile : file.Serves contents) (hsize : 1 ≤ size)
    (hfuel : contents.length < fuel) (h : Tracks contents b p) :
    ∃ b', readNBytesInto file size fuel 1 b
        = .ok (windowStatus 1 (window contents p 1).length, window contents p 1, b') ∧
      Tracks contents b' (p + (window contents p 1).length) := by
  obtain ⟨b', hread, h'⟩ := readNBytes_spec hfile hsize hfuel (show (0 : ℤ) ≤ 1 by decide) h
  rw [readNBytes, if_neg (by decide)] at hread
  exact ⟨b', hread, h'⟩

/-- **The slow path**, from any turn on. -/
theorem readVarint32Loop_spec (hfile : file.Serves contents) (hsize : 1 ≤ size)
    (hfuel : contents.length < fuel) (shifts : List ℕ) (result : BitVec 32)
    (h : Tracks contents b p) :
    ∃ b', readVarint32Loop file size fuel shifts result b
        = .ok ((varintCursor shifts result (contents.drop p)).1,
            (varintCursor shifts result (contents.drop p)).2.1, b') ∧
      Tracks contents b' (p + (varintCursor shifts result (contents.drop p)).2.2) := by
  induction shifts generalizing result b p with
  | nil => exact ⟨b, rfl, h⟩
  | cons shift shifts ih =>
    obtain ⟨b₁, hread, h₁⟩ := readNBytesInto_one hfile hsize hfuel h
    rw [readVarint32Loop, hread]
    cases hdrop : contents.drop p with
    | nil =>
      have hwin : window contents p 1 = [] := by rw [window, hdrop, List.take_nil]
      rw [hwin] at h₁ ⊢
      exact ⟨b₁, rfl, h₁⟩
    | cons c cs =>
      have hwin : window contents p 1 = [c] := by rw [window, hdrop]; rfl
      have hcs : contents.drop (p + 1) = cs := by
        rw [← List.drop_drop, hdrop, List.drop_one, List.tail_cons]
      rw [hwin] at h₁ ⊢
      rw [varintCursor]
      by_cases hc : c &&& 128 = 0
      · refine ⟨b₁, ?_, by simpa [hc] using h₁⟩
        simp [windowStatus, hc]
      · obtain ⟨b₂, hloop, h₂⟩ :=
          ih (result ||| (payload c <<< shift)) h₁
        rw [List.length_singleton, hcs] at hloop h₂
        refine ⟨b₂, ?_, ?_⟩
        · simp [windowStatus, hc, hloop]
        · simp only [hc, if_false]
          rwa [Nat.add_comm _ 1, ← Nat.add_assoc]

/-! ### The fast path -/

/-- A byte that ends a varint is its own payload. -/
theorem payload_of_last {c : UInt8} (hc : c &&& 128 = 0) : payload c = c.toBitVec.setWidth 32 := by
  rw [payload]
  congr 2
  apply UInt8.toNat_inj.mp
  rw [and_128_eq_zero_iff] at hc
  rw [UInt8.toNat_and, show (127 : UInt8).toNat = 2 ^ 7 - 1 from rfl,
    Nat.and_two_pow_sub_one_eq_mod, Nat.mod_eq_of_lt hc]

theorem payload_eq (c : UInt8) : payload c = c.toBitVec.setWidth 32 &&& 127#32 := by
  rw [payload, UInt8.toBitVec_and, BitVec.setWidth_and]
  rfl

/-- **The fast path's loop**, while every turn finds a byte. -/
theorem getVarintLoop_eq_cursor {data : Bytes} (shifts : List ℕ) (p : ℕ) (result : BitVec 32)
    (hlen : p + shifts.length ≤ data.length) :
    getVarintLoop data data.length shifts p result
      = .ok (if (varintCursor shifts result (data.drop p)).1 = .ok then
          some ((varintCursor shifts result (data.drop p)).2.1,
            p + (varintCursor shifts result (data.drop p)).2.2)
        else none) := by
  induction shifts generalizing p result with
  | nil => rfl
  | cons shift shifts ih =>
    rw [List.length_cons] at hlen
    have hp : p < data.length := by omega
    rw [getVarintLoop, if_pos hp, readByte_of_lt hp, Access.ok_bind,
      List.drop_eq_getElem_cons hp, varintCursor]
    by_cases hc : data[p] &&& 128 = 0
    · have hmore : ¬ 128 ≤ data[p].toNat := by
        rw [and_128_eq_zero_iff] at hc
        omega
      simp only [byte_more_iff (w := 32) (by decide), hmore, if_false, hc, if_true,
        payload_of_last hc]
      rfl
    · have hmore : 128 ≤ data[p].toNat := by
        rw [and_128_eq_zero_iff] at hc
        omega
      simp only [byte_more_iff (w := 32) (by decide), hmore, if_true, hc, if_false]
      rw [ih _ _ (by omega), ← payload_eq]
      split_ifs
      · rw [show ∀ k, p + 1 + k = p + (k + 1) from fun k => by omega]
      · rfl

/-- Bytes behind the turns do not matter. -/
theorem varintCursor_prefix {shifts : List ℕ} (result : BitVec 32) {l l' : Bytes} (h : l <+: l')
    (hlen : shifts.length ≤ l.length) :
    varintCursor shifts result l = varintCursor shifts result l' := by
  induction shifts generalizing result l l' with
  | nil => rfl
  | cons shift shifts ih =>
    cases l with
    | nil => simp at hlen
    | cons c cs =>
      obtain ⟨t, rfl⟩ := h
      rw [List.cons_append, varintCursor, varintCursor,
        ih _ ⟨t, rfl⟩ (by simpa using hlen)]

theorem varintCursor_le (shifts : List ℕ) (result : BitVec 32) (l : Bytes) :
    (varintCursor shifts result l).2.2 ≤ shifts.length := by
  induction shifts generalizing result l with
  | nil => exact le_rfl
  | cons shift shifts ih =>
    cases l with
    | nil => exact Nat.zero_le _
    | cons c cs =>
      rw [varintCursor, List.length_cons]
      split_ifs
      · exact Nat.le_add_left 1 _
      · exact Nat.succ_le_succ (ih _ cs)

/-- How the slow path ends while every turn finds a byte. -/
theorem varintCursor_status {shifts : List ℕ} (result : BitVec 32) {l : Bytes}
    (hlen : shifts.length ≤ l.length) :
    ((∀ c ∈ l.take shifts.length, 128 ≤ c.toNat) → (varintCursor shifts result l).1 = tooLarge) ∧
      ((¬ ∀ c ∈ l.take shifts.length, 128 ≤ c.toNat) → (varintCursor shifts result l).1 = .ok) := by
  induction shifts generalizing result l with
  | nil => simp [varintCursor]
  | cons shift shifts ih =>
    cases l with
    | nil => simp at hlen
    | cons c cs =>
      rw [varintCursor, List.length_cons, List.take_succ_cons]
      by_cases hc : c &&& 128 = 0
      · rw [if_pos hc]
        refine ⟨fun hall => ?_, fun _ => rfl⟩
        have := hall c List.mem_cons_self
        rw [and_128_eq_zero_iff] at hc
        omega
      · rw [if_neg hc]
        have hge : 128 ≤ c.toNat := by
          rw [and_128_eq_zero_iff] at hc
          omega
        simpa [hge] using ih _ (by simpa using hlen)

/-- `GetVarint32Ptr` is the loop: its first branch is the loop's first turn. -/
theorem getVarint32Ptr_eq_cursor {data : Bytes} {p : ℕ}
    (hlen : p + kMaxVarint32Bytes ≤ data.length) :
    getVarint32Ptr data p data.length
      = .ok (if (varintAt data p).1 = .ok then
          some (UInt32.ofBitVec (varintAt data p).2.1, p + (varintAt data p).2.2)
        else none) := by
  have hp : p < data.length := by
    rw [kMaxVarint32Bytes] at hlen
    omega
  have hfallback : getVarint32PtrFallback data p data.length
      = .ok (if (varintAt data p).1 = .ok then
          some (UInt32.ofBitVec (varintAt data p).2.1, p + (varintAt data p).2.2)
        else none) := by
    rw [getVarint32PtrFallback, getVarintLoop_eq_cursor (List.range' 0 5 7) p 0#32 hlen,
      Access.ok_bind, ← varintAt]
    split_ifs <;> rfl
  rw [getVarint32Ptr, if_pos hp, readByte_of_lt hp, Access.ok_bind]
  by_cases hc : data[p] &&& 128 = 0
  · have hat : varintAt data p = (.ok, data[p].toBitVec.setWidth 32, 1) := by
      rw [varintAt, List.drop_eq_getElem_cons hp, List.range'_succ, varintCursor, if_pos hc,
        payload_of_last hc, BitVec.shiftLeft_zero, BitVec.zero_or]
    rw [if_pos hc, hat]
    rfl
  · rw [if_neg hc]
    exact hfallback

/-! ### One call -/

theorem le_of_fast (hfast : Fast b) :
    kMaxVarint32Bytes ≤ (b.buf.drop b.pos).length := by
  rw [Fast] at hfast
  rw [List.length_drop]
  omega

/-- On the fast path the buffered bytes decide as the file's do. -/
theorem varintAt_buffer (h : Tracks contents b p) (hfast : Fast b) :
    varintAt b.buf b.pos = varintAt contents p :=
  varintCursor_prefix 0#32 h.unread (le_of_fast hfast)

/-- On an encoding that is too long the slow path says so. -/
theorem varintAt_overlong (hover : Overlong contents p) : (varintAt contents p).1 = tooLarge := by
  have hlen : (List.range' 0 5 7).length ≤ (contents.drop p).length := hover.1
  have hall : ∀ c ∈ (contents.drop p).take 5, 128 ≤ c.toNat := hover.2
  exact (varintCursor_status _ hlen).1 hall

/-- **The fast path on an encoding that is too long** moves nothing and calls it the end of the range. -/
theorem readVarint32_overlong (h : Tracks contents b p) (hfast : Fast b)
    (hover : Overlong contents p) (result : UInt32) :
    readVarint32 file size fuel result b
      = .ok (Errors.outOfRange "Parsed past limit.", result, b) := by
  rw [readVarint32, if_pos hfast, getVarint32Ptr_eq_cursor hfast, varintAt_buffer h hfast,
    varintAt_overlong hover]
  rfl

/-- **Otherwise a call is the slow path on a cursor.** -/
theorem readVarint32_spec (hfile : file.Serves contents) (hsize : 1 ≤ size)
    (hfuel : contents.length < fuel) (h : Tracks contents b p)
    (hagree : Overlong contents p → ¬ Fast b) (result : UInt32) :
    ∃ b', readVarint32 file size fuel result b
        = .ok ((varintAt contents p).1, UInt32.ofBitVec (varintAt contents p).2.1, b') ∧
      Tracks contents b' (p + (varintAt contents p).2.2) := by
  by_cases hfast : Fast b
  · have hlen : (List.range' 0 5 7).length ≤ (contents.drop p).length :=
      (le_of_fast hfast).trans (List.IsPrefix.length_le h.unread)
    have hstatus : (varintAt contents p).1 = .ok :=
      (varintCursor_status _ hlen).2 fun hall => hagree ⟨hlen, hall⟩ hfast
    rw [readVarint32, if_pos hfast, getVarint32Ptr_eq_cursor hfast, varintAt_buffer h hfast,
      if_pos hstatus, hstatus]
    have hle : (varintAt contents p).2.2 ≤ 5 := varintCursor_le _ _ _
    rw [Fast, kMaxVarint32Bytes] at hfast
    exact ⟨{ b with pos := b.pos + (varintAt contents p).2.2 }, rfl, h.advance (by omega)⟩
  · obtain ⟨b', hloop, h'⟩ :=
      readVarint32Loop_spec hfile hsize hfuel (List.range' 0 5 7) 0#32 h
    refine ⟨b', ?_, h'⟩
    rw [readVarint32, if_neg hfast, readVarint32Fallback, hloop]
    rfl

/-! ### Two buffers over one file -/

/-- The code of a status. -/
def statusCode : Status → Option ErrorCode
  | .ok => none
  | .error code _ => some code

/-- What the two runs are compared by: the status code, the bytes or the variable, and `Tell()`. -/
def VarintOut.seen : VarintOut → Option ErrorCode × (Bytes ⊕ UInt32) × ℤ
  | .plain out => (statusCode out.status, .inl out.data, out.tell)
  | .varint status value tell => (statusCode status, .inr value, tell)

/-- In front of an encoding that is too long, both take the fast path or neither does. -/
def SamePath (contents : Bytes) (b b' : State) : VarintOp → Prop
  | .plain _ => True
  | .readVarint32 _ => Overlong contents (tell b).toNat → (Fast b ↔ Fast b')

/-- One call on the fast path, in front of an encoding that is too long. -/
theorem varintStep_overlong (h : Tracks contents b p) (hfast : Fast b) (hover : Overlong contents p)
    (result : UInt32) :
    varintStep file size fuel b (.readVarint32 result)
      = .ok (.varint (Errors.outOfRange "Parsed past limit.") result p, b) := by
  rw [varintStep, readVarint32_overlong h hfast hover, Access.ok_bind, ← h.tell_eq]
  rfl

/-- Any other call. -/
theorem varintStep_readVarint32 (hfile : file.Serves contents) (hsize : 1 ≤ size)
    (hfuel : contents.length < fuel) (h : Tracks contents b p)
    (hagree : Overlong contents p → ¬ Fast b) (result : UInt32) :
    ∃ b', varintStep file size fuel b (.readVarint32 result)
        = .ok (.varint (varintAt contents p).1 (UInt32.ofBitVec (varintAt contents p).2.1)
            (p + (varintAt contents p).2.2 : ℕ), b') ∧
      Tracks contents b' (p + (varintAt contents p).2.2) := by
  obtain ⟨b', hread, h'⟩ := readVarint32_spec hfile hsize hfuel h hagree result
  refine ⟨b', ?_, h'⟩
  rw [varintStep, hread, Access.ok_bind, ← h'.tell_eq]
  rfl

/-- Every call returns, and the buffer is again in front of some cursor. -/
theorem varintStep_total (hfile : file.Serves contents) (hsize : 1 ≤ size)
    (hfuel : contents.length < fuel) (h : ∃ p, Tracks contents b p) (op : VarintOp) :
    ∃ out b', varintStep file size fuel b op = .ok (out, b') ∧ ∃ p, Tracks contents b' p := by
  obtain ⟨p, h⟩ := h
  cases op with
  | plain op =>
    obtain ⟨b', hstep, h'⟩ := step_refines hfile hsize hfuel h op
    exact ⟨_, b', by rw [varintStep, hstep]; rfl, _, h'⟩
  | readVarint32 result =>
    by_cases hpast : Overlong contents p ∧ Fast b
    · exact ⟨_, b, varintStep_overlong h hpast.2 hpast.1 result, p, h⟩
    · obtain ⟨b', hstep, h'⟩ := varintStep_readVarint32 hfile hsize hfuel h
        (fun hover hfast => hpast ⟨hover, hfast⟩) result
      exact ⟨_, b', hstep, _, h'⟩

/-- The two buffers are in front of one cursor. -/
def Together (contents : Bytes) (b b' : State) : Prop :=
  ∃ p, Tracks contents b p ∧ Tracks contents b' p

/-- **One call on two buffers**: they show the same exactly if they take the same path in front of an
encoding that is too long, and then stay together. -/
theorem varintStep_agree {file' : RandomAccessFile} {size' : ℕ} (hfile : file.Serves contents)
    (hfile' : file'.Serves contents) (hsize : 1 ≤ size) (hsize' : 1 ≤ size')
    (hfuel : contents.length < fuel) {b b' t t' : State} {op : VarintOp} {o o' : VarintOut}
    (h : Together contents b b') (hstep : varintStep file size fuel b op = .ok (o, t))
    (hstep' : varintStep file' size' fuel b' op = .ok (o', t')) :
    (o.seen = o'.seen ↔ SamePath contents b b' op) ∧
      (SamePath contents b b' op → Together contents t t') := by
  obtain ⟨p, h, h'⟩ := h
  cases op with
  | plain op =>
    obtain ⟨b₁, hplain, h₁⟩ := step_refines hfile hsize hfuel h op
    obtain ⟨b₁', hplain', h₁'⟩ := step_refines hfile' hsize' hfuel h' op
    rw [varintStep, hplain] at hstep
    rw [varintStep, hplain'] at hstep'
    cases hstep
    cases hstep'
    exact ⟨⟨fun _ => trivial, fun _ => rfl⟩, fun _ => ⟨_, h₁, h₁'⟩⟩
  | readVarint32 result =>
    rw [SamePath, h.tell_eq, Int.toNat_natCast]
    by_cases hover : Overlong contents p
    · simp only [hover, true_implies]
      by_cases hfast : Fast b
      · rw [varintStep_overlong h hfast hover] at hstep
        cases hstep
        by_cases hfast' : Fast b'
        · -- both stay where they are
          rw [varintStep_overlong h' hfast' hover] at hstep'
          cases hstep'
          exact ⟨by simp [hfast, hfast'], fun _ => ⟨p, h, h'⟩⟩
        · obtain ⟨b₁', hslow', h₁'⟩ :=
            varintStep_readVarint32 hfile' hsize' hfuel h' (fun _ => hfast') result
          rw [hslow', varintAt_overlong hover] at hstep'
          cases hstep'
          simp [VarintOut.seen, statusCode, Errors.outOfRange, tooLarge, Errors.dataLoss, hfast,
            hfast']
      · obtain ⟨b₁, hslow, h₁⟩ :=
          varintStep_readVarint32 hfile hsize hfuel h (fun _ => hfast) result
        rw [hslow, varintAt_overlong hover] at hstep
        cases hstep
        by_cases hfast' : Fast b'
        · rw [varintStep_overlong h' hfast' hover] at hstep'
          cases hstep'
          simp [VarintOut.seen, statusCode, Errors.outOfRange, tooLarge, Errors.dataLoss, hfast,
            hfast']
        · -- both pass over five bytes
          obtain ⟨b₁', hslow', h₁'⟩ :=
            varintStep_readVarint32 hfile' hsize' hfuel h' (fun _ => hfast') result
          rw [hslow', varintAt_overlong hover] at hstep'
          cases hstep'
          exact ⟨by simp [hfast, hfast'], fun _ => ⟨_, h₁, h₁'⟩⟩
    · obtain ⟨b₁, hone, h₁⟩ :=
        varintStep_readVarint32 hfile hsize hfuel h (fun ho => absurd ho hover) result
      obtain ⟨b₁', hone', h₁'⟩ :=
        varintStep_readVarint32 hfile' hsize' hfuel h' (fun ho => absurd ho hover) result
      rw [hone] at hstep
      rw [hone'] at hstep'
      cases hstep
      cases hstep'
      exact ⟨by simp [hover], fun _ => ⟨_, h₁, h₁'⟩⟩

/-- **Two buffers over one file** return from every call, and show the same throughout exactly if in
front of every encoding that is too long both take the same path. -/
theorem readVarint32_agree_iff (contents : Bytes) (file file' : RandomAccessFile)
    (hfile : file.Serves contents) (hfile' : file'.Serves contents) (size size' : ℕ)
    (hsize : 1 ≤ size) (hsize' : 1 ≤ size') (fuel : ℕ) (hfuel : contents.length < fuel)
    (ops : List VarintOp) :
    ∃ outs b outs' b',
      run (varintStep file size fuel) init ops = .ok (outs, b) ∧
      run (varintStep file' size' fuel) init ops = .ok (outs', b') ∧
      (outs.map VarintOut.seen = outs'.map VarintOut.seen ↔
        Meets (SamePath contents) (varintStep file size fuel) (varintStep file' size' fuel) init init
          ops) := by
  obtain ⟨outs, b, hrun, -⟩ :=
    run_total (fun _ op h => varintStep_total hfile hsize hfuel h op) ⟨0, tracks_init contents⟩ ops
  obtain ⟨outs', b', hrun', -⟩ :=
    run_total (fun _ op h => varintStep_total hfile' hsize' hfuel h op) ⟨0, tracks_init contents⟩ ops
  refine ⟨outs, b, outs', b', hrun, hrun', ?_⟩
  exact run_agree_iff
    (fun _ _ _ _ _ _ _ h hs hs' => varintStep_agree hfile hfile' hsize hsize' hfuel h hs hs')
    ⟨0, tracks_init contents, tracks_init contents⟩ hrun hrun'

/-- Buffers of one and of five bytes in front of a two-byte varint. -/
theorem readVarint32_agree_iff_small :
    ∃ outs b outs' b',
      run (varintStep (linuxRandomAccessFile (RegularFile.whole [0x96, 0x01])) 1 3) init
        [.readVarint32 0] = .ok (outs, b) ∧
      run (varintStep (linuxRandomAccessFile (RegularFile.whole [0x96, 0x01])) 5 3) init
        [.readVarint32 0] = .ok (outs', b') ∧
      (outs.map VarintOut.seen = outs'.map VarintOut.seen ↔
        Meets (SamePath [0x96, 0x01])
          (varintStep (linuxRandomAccessFile (RegularFile.whole [0x96, 0x01])) 1 3)
          (varintStep (linuxRandomAccessFile (RegularFile.whole [0x96, 0x01])) 5 3) init init
          [.readVarint32 0]) :=
  readVarint32_agree_iff [0x96, 0x01] _ _ (linuxRandomAccessFile_serves _)
    (linuxRandomAccessFile_serves _) 1 5 (by decide) (by decide) 3 (by decide) [.readVarint32 0]

/-- One byte, then five that all announce another. -/
def overlongFile : Bytes := [0x61, 0x80, 0x80, 0x80, 0x80, 0x80]

/-- **Buffers of one and of six bytes disagree**: after the first byte the varint is data loss at
offset 6 for one, and past the end of the file at offset 1 for the other. -/
theorem readVarint32_disagree :
    ∃ outs b outs' b',
      run (varintStep (linuxRandomAccessFile (RegularFile.whole overlongFile)) 1 7) init
        [.plain (.readNBytes 1), .readVarint32 0] = .ok (outs, b) ∧
      run (varintStep (linuxRandomAccessFile (RegularFile.whole overlongFile)) 6 7) init
        [.plain (.readNBytes 1), .readVarint32 0] = .ok (outs', b') ∧
      outs.map VarintOut.seen = [(none, .inl [0x61], 1), (some .dataLoss, .inr 0, 6)] ∧
      outs'.map VarintOut.seen = [(none, .inl [0x61], 1), (some .outOfRange, .inr 0, 1)] ∧
      outs.map VarintOut.seen ≠ outs'.map VarintOut.seen :=
  ⟨_, _, _, _, rfl, rfl, rfl, rfl, by decide⟩

end LearnNetlib.InputBuffer
