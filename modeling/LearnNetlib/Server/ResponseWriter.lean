import LearnNetlib.Server.HandlerContext

/-!
# `rest::ResponseWriter`

A body goes out in chunks, each of them written when the one before has been.  The writer refers to its
context, which is to stay until the last chunk has been written.

* `respond`, `sendBody`, `handleChunk` — the code of `server/response_writer.cc`;
* `Slices` — what the chunks are to be;
* `sendBody_append` — no write follows the last one;
* **`respond_spec`** — the headers and the chunks, whatever comes of the writes.
-/

namespace LearnNetlib.Rest

/-! ### The code -/

/-- `kMaxPerSendSize`. -/
def kMaxPerSendSize : UInt64 := 4096

/-- `std::min(need_send_size, kMaxPerSendSize)`. -/
def nextSize (needSendSize : UInt64) : UInt64 :=
  if kMaxPerSendSize < needSendSize then kMaxPerSendSize else needSendSize

/-- `HandleChunk`: what is to be sent next, if anything is; the sizes are `size_t`. -/
def handleChunk (prevOffset prevNeedSendSize sentSize : UInt64) (ec : Option AsioError) :
    Option (UInt64 × UInt64) :=
  if prevNeedSendSize - sentSize ≤ 0 then none
  else
    match ec with
    | none => some (prevOffset + sentSize, prevNeedSendSize - sentSize)
    | some _ => none

/-- `SendBody`, and the callbacks of the writes as far as they come. -/
def sendBody (body : Bytes) : List (Option AsioError) → UInt64 → UInt64 → Access (List ConnCall)
  | [], offset, needSendSize => do
    let chunk ← readBytes body offset.toNat (nextSize needSendSize).toNat
    return [.write chunk]
  | ec :: ecs, offset, needSendSize => do
    let sentSize := nextSize needSendSize
    let chunk ← readBytes body offset.toNat sentSize.toNat
    match handleChunk offset needSendSize sentSize ec with
    | none => return [.write chunk]
    | some (offset, needSendSize) =>
      let calls ← sendBody body ecs offset needSendSize
      return .write chunk :: calls

/-- The headers, with a length among them. -/
def addContentLength (context : HandlerContext) : List Header :=
  match context.responseHeaders.find? fun header => iequals header.name (ascii "content-length") with
  | none =>
    context.responseHeaders ++ [⟨ascii "Content-Length", toString context.responseBody.length⟩]
  | some _ => context.responseHeaders

/-- `ResponseWriter::operator()` and `SendHeaders`; nothing is sent for an empty body. -/
def respond (context : HandlerContext) (ecs : List (Option AsioError)) : Access (List ConnCall) :=
  if 0 < context.responseBody.length then do
    let calls ← sendBody context.responseBody ecs 0 context.responseBody.length.toUInt64
    return .setStatus .ok :: .setHeaders (addContentLength context) :: calls
  else return []

/-! ### The chunks -/

/-- The chunks are consecutive slices from the start of `body`, none of them empty or too long; they make
up all of it if every write succeeds, and none follows a write that fails or has not ended. -/
structure Slices (body : Bytes) (ecs : List (Option AsioError)) (chunks : List Bytes) : Prop where
  consecutive : chunks.flatten <+: body
  sizes : ∀ chunk ∈ chunks, 1 ≤ chunk.length ∧ chunk.length ≤ kMaxPerSendSize.toNat
  whole : (∀ i < chunks.length, ecs[i]? = some none) → chunks.flatten = body
  stops : ∀ i, ecs[i]? ≠ some none → chunks.length ≤ i + 1

theorem nextSize_spec {needSendSize : UInt64} (hpos : 1 ≤ needSendSize.toNat) :
    1 ≤ (nextSize needSendSize).toNat ∧ (nextSize needSendSize).toNat ≤ kMaxPerSendSize.toNat ∧
      (nextSize needSendSize).toNat ≤ needSendSize.toNat := by
  have hmax : 1 ≤ kMaxPerSendSize.toNat := by decide
  rw [nextSize]
  split_ifs with h
  · rw [UInt64.lt_iff_toNat_lt] at h
    exact ⟨hmax, le_rfl, h.le⟩
  · rw [UInt64.lt_iff_toNat_lt] at h
    exact ⟨hpos, by omega, le_rfl⟩

/-- The last chunk leaves nothing, and after any other something is left. -/
theorem handleChunk_eq {offset needSendSize sentSize : UInt64} (ec : Option AsioError)
    (hle : sentSize.toNat ≤ needSendSize.toNat) :
    handleChunk offset needSendSize sentSize ec =
      if sentSize.toNat < needSendSize.toNat ∧ ec = none then
        some (offset + sentSize, needSendSize - sentSize)
      else none := by
  have hsub := UInt64.toNat_sub_of_le needSendSize sentSize (UInt64.le_iff_toNat_le.mpr hle)
  have hzero : needSendSize - sentSize ≤ 0 ↔ ¬ sentSize.toNat < needSendSize.toNat := by
    rw [UInt64.le_iff_toNat_le, hsub, UInt64.toNat_zero]
    omega
  unfold handleChunk
  cases ec <;> by_cases h : sentSize.toNat < needSendSize.toNat <;> simp [h, hzero]

section

variable {body : Bytes} {ecs : List (Option AsioError)} {k : ℕ}

/-- A chunk after which there is nothing to send, or no callback to send it. -/
theorem Slices.single (hk : 1 ≤ k) (hmax : k ≤ kMaxPerSendSize.toNat) (hle : k ≤ body.length)
    (hlast : body.length ≤ k ∨ ecs[0]? ≠ some none) : Slices body ecs [body.take k] := by
  refine ⟨?_, ?_, fun hall => ?_, fun i _ => Nat.le_add_left 1 i⟩
  · rw [List.flatten_singleton]
    exact List.take_prefix k body
  · intro chunk hchunk
    rw [List.mem_singleton.mp hchunk, List.length_take]
    omega
  · rw [List.flatten_singleton]
    rcases hlast with hlast | hlast
    · exact List.take_of_length_le hlast
    · exact absurd (hall 0 Nat.one_pos) hlast

/-- A chunk in front of others. -/
theorem Slices.cons {chunks : List Bytes} (hk : 1 ≤ k) (hmax : k ≤ kMaxPerSendSize.toNat)
    (hle : k ≤ body.length) (h : Slices (body.drop k) ecs chunks) :
    Slices body (none :: ecs) (body.take k :: chunks) := by
  refine ⟨?_, ?_, fun hall => ?_, fun i hi => ?_⟩
  · rw [List.flatten_cons]
    conv_rhs => rw [← List.take_append_drop k body]
    exact List.prefix_append_right_inj _ |>.mpr h.consecutive
  · refine List.forall_mem_cons.mpr ⟨?_, h.sizes⟩
    rw [List.length_take]
    omega
  · have hrest : chunks.flatten = body.drop k :=
      h.whole fun i hi => hall (i + 1) (Nat.succ_lt_succ hi)
    rw [List.flatten_cons, hrest, List.take_append_drop]
  · cases i with
    | zero => exact absurd rfl hi
    | succ i => exact Nat.succ_le_succ (h.stops i hi)

end

section

variable {body : Bytes} {offset needSendSize : UInt64}

/-- One chunk, and what its callback makes of the rest. -/
theorem sendBody_cons (hsum : offset.toNat + needSendSize.toNat = body.length)
    (hpos : 1 ≤ needSendSize.toNat) (ec : Option AsioError) (ecs : List (Option AsioError)) :
    sendBody body (ec :: ecs) offset needSendSize =
      if (nextSize needSendSize).toNat < needSendSize.toNat ∧ ec = none then
        (sendBody body ecs (offset + nextSize needSendSize) (needSendSize - nextSize needSendSize)).map
          (.write ((body.drop offset.toNat).take (nextSize needSendSize).toNat) :: ·)
      else .ok [.write ((body.drop offset.toNat).take (nextSize needSendSize).toNat)] := by
  obtain ⟨hsent, -, hle⟩ := nextSize_spec hpos
  rw [sendBody, readBytes_of_le (by omega), handleChunk_eq ec hle]
  split_ifs with h
  · simp only [Access.ok_bind, Access.pure_eq]
    cases sendBody body ecs (offset + nextSize needSendSize)
      (needSendSize - nextSize needSendSize) <;> rfl
  · rfl

/-- **From an offset on.** -/
theorem sendBody_spec (hbody : body.length < 2 ^ 64) (ecs : List (Option AsioError))
    (hpos : 1 ≤ needSendSize.toNat) (hsum : offset.toNat + needSendSize.toNat = body.length) :
    ∃ chunks, sendBody body ecs offset needSendSize = .ok (chunks.map .write) ∧
      Slices (body.drop offset.toNat) ecs chunks := by
  induction ecs generalizing offset needSendSize with
  | nil =>
    obtain ⟨hsent, hmax, hle⟩ := nextSize_spec hpos
    refine ⟨[_], ?_, Slices.single hsent hmax ?_ (.inr nofun)⟩
    · rw [sendBody, readBytes_of_le (by omega)]
      rfl
    · rw [List.length_drop]
      omega
  | cons ec ecs ih =>
    obtain ⟨hsent, hmax, hle⟩ := nextSize_spec hpos
    have hrest : (nextSize needSendSize).toNat ≤ (body.drop offset.toNat).length := by
      rw [List.length_drop]
      omega
    rw [sendBody_cons hsum hpos]
    split_ifs with hgo
    · obtain ⟨hmore, rfl⟩ := hgo
      have hsub := UInt64.toNat_sub_of_le needSendSize (nextSize needSendSize)
        (UInt64.le_iff_toNat_le.mpr hle)
      have hadd : (offset + nextSize needSendSize).toNat
          = offset.toNat + (nextSize needSendSize).toNat := by
        rw [UInt64.toNat_add]
        exact Nat.mod_eq_of_lt (by omega)
      have hpos' : 1 ≤ (needSendSize - nextSize needSendSize).toNat := by omega
      have hsum' : (offset + nextSize needSendSize).toNat
          + (needSendSize - nextSize needSendSize).toNat = body.length := by omega
      obtain ⟨chunks, hchunks, hslices⟩ := ih hpos' hsum'
      rw [hadd, ← List.drop_drop] at hslices
      refine ⟨_ :: chunks, ?_, hslices.cons hsent hmax hrest⟩
      rw [hchunks]
      rfl
    · refine ⟨[_], rfl, Slices.single hsent hmax hrest ?_⟩
      by_cases hec : ec = none
      · refine .inl ?_
        rw [List.length_drop]
        have hlast : ¬ (nextSize needSendSize).toNat < needSendSize.toNat := fun h => hgo ⟨h, hec⟩
        omega
      · exact .inr fun h => hec (Option.some.inj h)

/-- Once all its writes have succeeded, nothing is left to happen. -/
theorem sendBody_append {ecs : List (Option AsioError)} {calls : List ConnCall}
    (hcalls : sendBody body ecs offset needSendSize = .ok calls)
    (hall : ∀ i < calls.length, ecs[i]? = some none) (more : List (Option AsioError)) :
    sendBody body (ecs ++ more) offset needSendSize = .ok calls := by
  induction ecs generalizing offset needSendSize calls with
  | nil =>
    rw [sendBody, Access.bind_eq_ok] at hcalls
    obtain ⟨chunk, -, hchunk⟩ := hcalls
    cases hchunk
    exact absurd (hall 0 Nat.one_pos) nofun
  | cons ec ecs ih =>
    rw [sendBody, Access.bind_eq_ok] at hcalls
    obtain ⟨chunk, hchunk, hrest⟩ := hcalls
    rw [List.cons_append, sendBody, hchunk]
    cases hnext : handleChunk offset needSendSize (nextSize needSendSize) ec with
    | none =>
      rw [hnext] at hrest
      exact hrest
    | some next =>
      rw [hnext, Access.bind_eq_ok] at hrest
      obtain ⟨calls', hcalls', heq⟩ := hrest
      cases heq
      have htail := ih hcalls' fun i hi => hall (i + 1) (Nat.succ_lt_succ hi)
      simp only [Access.ok_bind, htail]
      rfl

end

/-! ### The response -/

section

variable (context : HandlerContext)

/-- Some header has the name, whatever its case. -/
def HasContentLength (headers : List Header) : Prop :=
  ∃ header ∈ headers, iequals header.name (ascii "content-length") = true

theorem addContentLength_of_has (h : HasContentLength context.responseHeaders) :
    addContentLength context = context.responseHeaders := by
  obtain ⟨header, hmem, hname⟩ := h
  rw [addContentLength]
  cases hres : context.responseHeaders.find?
      fun header => iequals header.name (ascii "content-length") with
  | none => exact absurd hname (List.find?_eq_none.mp hres header hmem)
  | some _ => rfl

theorem addContentLength_of_not_has (h : ¬ HasContentLength context.responseHeaders) :
    addContentLength context = context.responseHeaders
      ++ [⟨ascii "Content-Length", toString context.responseBody.length⟩] := by
  have hnone : context.responseHeaders.find?
      (fun header => iequals header.name (ascii "content-length")) = none :=
    List.find?_eq_none.mpr fun header hmem hname => h ⟨header, hmem, hname⟩
  rw [addContentLength, hnone]

theorem hasContentLength_addContentLength : HasContentLength (addContentLength context) := by
  by_cases h : HasContentLength context.responseHeaders
  · rw [addContentLength_of_has context h]
    exact h
  · rw [addContentLength_of_not_has context h]
    have hname : iequals (ascii "Content-Length") (ascii "content-length") = true := by decide
    exact ⟨_, List.mem_append_right _ (List.mem_singleton_self _), hname⟩

/-- **The response** to whatever comes of the writes: headers with a length among them, which is the
handler's own or else the length of the body, and the slices of the body; once all writes there are have
succeeded, the body has been sent, and nothing more is, whatever further callbacks there were. -/
theorem respond_spec (hbody : 1 ≤ context.responseBody.length)
    (hsize : context.responseBody.length < 2 ^ 64) (ecs : List (Option AsioError)) :
    ∃ headers chunks,
      respond context ecs = .ok (.setStatus .ok :: .setHeaders headers :: chunks.map .write) ∧
      HasContentLength headers ∧
      (HasContentLength context.responseHeaders → headers = context.responseHeaders) ∧
      (¬ HasContentLength context.responseHeaders → ∃ value,
        headers = context.responseHeaders ++ [⟨ascii "Content-Length", value⟩] ∧
          stoul value = .ok context.responseBody.length) ∧
      Slices context.responseBody ecs chunks ∧
      ((∀ i < chunks.length, ecs[i]? = some none) →
        ∀ more, respond context (ecs ++ more) = respond context ecs) := by
  have hnat : context.responseBody.length.toUInt64.toNat = context.responseBody.length :=
    UInt64.toNat_ofNat_of_lt' hsize
  have hneed : 1 ≤ context.responseBody.length.toUInt64.toNat := by omega
  have hsum : (0 : UInt64).toNat + context.responseBody.length.toUInt64.toNat
      = context.responseBody.length := by
    rw [hnat, UInt64.toNat_zero, Nat.zero_add]
  obtain ⟨chunks, hchunks, hslices⟩ := sendBody_spec hsize ecs hneed hsum
  rw [UInt64.toNat_zero, List.drop_zero] at hslices
  have hrespond : ∀ ecs' : List (Option AsioError),
      sendBody context.responseBody ecs' 0 context.responseBody.length.toUInt64
        = .ok (chunks.map .write) →
      respond context ecs'
        = .ok (.setStatus .ok :: .setHeaders (addContentLength context) :: chunks.map .write) := by
    intro ecs' hsend
    rw [respond, if_pos (by omega), hsend]
    rfl
  refine ⟨_, chunks, hrespond ecs hchunks, hasContentLength_addContentLength context,
    addContentLength_of_has context, fun h => ?_, hslices, fun hall more => ?_⟩
  · exact ⟨_, addContentLength_of_not_has context h, stoul_toString hsize⟩
  · rw [hrespond ecs hchunks]
    refine hrespond _ (sendBody_append hchunks (fun i hi => hall i ?_) more)
    rwa [List.length_map] at hi

/-- Three bytes, a header that is none, and a write that succeeds. -/
theorem respond_spec_three :
    ∃ headers chunks,
      respond ⟨[], [], [], [0x61, 0x62, 0x63]⟩ [none]
        = .ok (.setStatus .ok :: .setHeaders headers :: chunks.map .write) ∧
      HasContentLength headers ∧
      (HasContentLength [] → headers = []) ∧
      (¬ HasContentLength [] → ∃ value,
        headers = [] ++ [⟨ascii "Content-Length", value⟩] ∧ stoul value = .ok 3) ∧
      Slices [0x61, 0x62, 0x63] [none] chunks ∧
      ((∀ i < chunks.length, [none][i]? = some (none : Option AsioError)) →
        ∀ more, respond ⟨[], [], [], [0x61, 0x62, 0x63]⟩ ([none] ++ more)
          = respond ⟨[], [], [], [0x61, 0x62, 0x63]⟩ [none]) :=
  respond_spec ⟨[], [], [], [0x61, 0x62, 0x63]⟩ (by decide) (by decide) [none]

end

end LearnNetlib.Rest
