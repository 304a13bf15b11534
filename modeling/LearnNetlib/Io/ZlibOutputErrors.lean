import LearnNetlib.Io.ZlibOutputBuffer

/-!
# A `ZlibOutputBuffer` over a file that fails

* `directHeads` — the turns in which `Append` deflates straight out of the caller's data;
* `Accepts` — what such a turn asks of the file and of `deflate`;
* `append_owned_iff` — one `Append`;
* **`zlibOutputBuffer_owned_iff`** — between the calls `next_in` points into the own buffer exactly if
  no turn of the direct loop fails.
-/

namespace LearnNetlib.ZlibOutputBuffer

open LearnNetlib.Loops LearnNetlib.Runs
open ZlibInputStream (toInt)

section

variable {ζ : Type} (deflate : ζ → Bytes → ℕ → ℤ → DeflateResult ζ) (file : WritableFile)
  (sync : Appends → Status) (flushMode : ℤ) (inCap outCap fuel : ℕ)

/-- The heads of the direct loop of a call. -/
def directHeads (z : State ζ) : Op → List (State ζ)
  | .append data =>
    if z.closed ∨ toInt data.length ≤ availableInputSpace inCap z then []
    else
      match deflateBuffered deflate file flushMode outCap fuel false z with
      | .error _ => []
      | .ok (s, z) =>
        if s.isOk = false ∨ toInt data.length ≤ availableInputSpace inCap z then []
        else heads (turn deflate file outCap fullForAppend flushMode) fuel (redirect data z)
  | .flush => []
  | .sync => []
  | .close => []

/-- The file takes the output buffer if it is full, and `deflate` succeeds. -/
def Accepts (h : State ζ) : Prop :=
  (availOut outCap h = 0 → file.append h.appends h.outBuf = .ok) ∧
    accepted (deflate h.deflater h.avail (if availOut outCap h = 0 then outCap else availOut outCap h)
      flushMode).code flushMode = true

end

section

variable {ζ : Type} {deflate : ζ → Bytes → ℕ → ℤ → DeflateResult ζ} {file : WritableFile}
  {sync : Appends → Status} {flushMode : ℤ} {inCap outCap fuel : ℕ} {z z' : State ζ}

theorem deflateOnce_isOk (deflate : ζ → Bytes → ℕ → ℤ → DeflateResult ζ) (outCap : ℕ) (flush : ℤ) (z : State ζ) :
    (deflateOnce deflate outCap flush z).1.isOk
      = accepted (deflate z.deflater z.avail (availOut outCap z) flush).code flush := by
  rw [deflateOnce]
  dsimp only
  split_ifs with h
  · exact h.symm
  · rw [Bool.not_eq_true] at h
    rw [h]
    rfl

/-- Writing out a buffer that is not empty. -/
theorem flushOutput_eq (file : WritableFile) (hbuf : z.outBuf ≠ []) :
    (flushOutputBufferToFile file z).1 = file.append z.appends z.outBuf ∧
      (file.append z.appends z.outBuf = .ok → (flushOutputBufferToFile file z).2
        = { z with appends := z.appends ++ [(z.outBuf, .ok)], outBuf := [] }) := by
  rw [flushOutputBufferToFile, if_pos (List.length_pos_iff.mpr hbuf)]
  dsimp only
  split_ifs with hs
  · rw [Status.isOk_iff] at hs
    exact ⟨rfl, fun _ => by rw [hs]⟩
  · exact ⟨rfl, fun h => absurd h (Status.ne_ok hs)⟩

/-- The state `deflate` is called in, once the output buffer has been seen to. -/
theorem directFlush_spec (hout : 1 ≤ outCap) (file : WritableFile) (h : State ζ) :
    ∃ s₁ h₁, (if fullForAppend (availOut outCap h) then flushOutputBufferToFile file h
        else (.ok, h)) = (s₁, h₁) ∧
      (s₁ = .ok ↔ (availOut outCap h = 0 → file.append h.appends h.outBuf = .ok)) ∧
      (s₁ = .ok → h₁.deflater = h.deflater ∧ h₁.avail = h.avail ∧ availOut outCap h₁
        = if availOut outCap h = 0 then outCap else availOut outCap h) := by
  by_cases hfull : availOut outCap h = 0
  · have hbuf : h.outBuf ≠ [] := by
      intro hnil
      rw [availOut, hnil, List.length_nil] at hfull
      omega
    obtain ⟨hstatus, hempty⟩ := flushOutput_eq file hbuf
    refine ⟨(flushOutputBufferToFile file h).1, (flushOutputBufferToFile file h).2,
      if_pos (decide_eq_true hfull), ?_, fun hs => ?_⟩
    · rw [hstatus]
      exact ⟨fun hs _ => hs, fun hs => hs hfull⟩
    · rw [hstatus] at hs
      rw [hempty hs, if_pos hfull]
      exact ⟨rfl, rfl, rfl⟩
  · refine ⟨.ok, h, if_neg (by rw [fullForAppend, decide_eq_true_eq]; exact hfull), ?_, fun _ => ?_⟩
    · exact ⟨fun _ hz => absurd hz hfull, fun _ => rfl⟩
    · rw [if_neg hfull]
      exact ⟨rfl, rfl, rfl⟩

/-- **A turn of the direct loop fails exactly if it is not accepted.** -/
theorem turn_fails_iff (hout : 1 ≤ outCap) (flushMode : ℤ) (h : State ζ) :
    (∃ s z', turn deflate file outCap fullForAppend flushMode h = .ok (.inr (s, z')) ∧ s ≠ .ok) ↔
      ¬ Accepts deflate file flushMode outCap h := by
  obtain ⟨s₁, h₁, heq, hstatus, hsame⟩ := directFlush_spec hout file h
  have hdeflate := deflateOnce_isOk deflate outCap flushMode h₁
  rw [turn, heq, Accepts, ← hstatus]
  dsimp only
  by_cases hs₁ : s₁ = .ok
  · obtain ⟨hdeflater, havail, hroom⟩ := hsame hs₁
    rw [hdeflater, havail, hroom] at hdeflate
    rw [if_pos (by rw [hs₁]; rfl), ← hdeflate]
    split_ifs with hs hfull
    · simp [hs₁, hs]
    · simp [hs₁, hs]
    · refine ⟨fun _ h => hs h.2, fun _ => ⟨_, _, rfl, Status.ne_ok hs⟩⟩
  · rw [if_neg (by rwa [Status.isOk_iff])]
    exact ⟨fun _ h => hs₁ h.1, fun _ => ⟨_, _, rfl, hs₁⟩⟩

/-! ### One call -/

/-- A loop over the own buffer stays there. -/
theorem deflateLoop_owned (hdeflate : Deflates deflate) {full : ℕ → Bool} {flush : ℤ} {s : Status}
    (howned : Owned inCap z)
    (hloop : deflateLoop deflate file outCap fuel full flush z = .ok (s, z')) : Owned inCap z' := by
  have hspec := deflateLoop_spec hdeflate file outCap fuel full flush z
  rw [hloop] at hspec
  obtain ⟨-, hfail, hok⟩ := hspec
  by_cases hs : s = .ok
  · obtain ⟨hnext, havail, -⟩ := hok hs
    exact owned_start hnext havail
  · exact howned.consumes (hfail hs)

/-- A turn over the caller's data stays there. -/
theorem turn_caller (hdeflate : Deflates deflate) (hcaller : z.nextIn = .caller) :
    (∀ z', turn deflate file outCap fullForAppend flushMode z = .ok (.inl z') →
      z'.nextIn = .caller) ∧
    ∀ s z', turn deflate file outCap fullForAppend flushMode z = .ok (.inr (s, z')) →
      z'.nextIn = .caller := by
  have hkeep : ∀ {z'}, Consumes z z' → z'.nextIn = .caller := by
    rintro z' ⟨k, hnext, -⟩
    rw [hnext, hcaller]
    rfl
  rcases turn_spec hdeflate file outCap fullForAppend flushMode z with
    ⟨z₁, hturn, hworked⟩ | ⟨s, z₁, hturn, hworked, -⟩
  · rw [hturn]
    refine ⟨fun z' h => ?_, fun s z' h => by cases h⟩
    cases h
    exact hkeep hworked.1
  · rw [hturn]
    refine ⟨fun z' h => by simp at h, fun s z' h => ?_⟩
    obtain ⟨-, rfl⟩ : _ ∧ z₁ = z' := by simpa using h
    exact hkeep hworked.1

/-- A direct loop all of whose turns are accepted does not fail. -/
theorem directLoop_isOk (hdeflate : Deflates deflate) (hout : 1 ≤ outCap) {s : Status}
    (hguard : ∀ h ∈ heads (turn deflate file outCap fullForAppend flushMode) fuel z,
      Accepts deflate file flushMode outCap h)
    (hresult : deflateLoop deflate file outCap fuel fullForAppend flushMode z = .ok (s, z')) :
    s = .ok := by
  have hok : ∀ r, loop .stillRunning (turn deflate file outCap fullForAppend flushMode) fuel z
      = .ok r → r.1 = .ok := by
    refine loop_outcome (fun _ => True) (Accepts deflate file flushMode outCap)
      (fun x => ∀ r : Status × State ζ, x = .ok r → r.1 = .ok) (fun r h => by cases h)
      (fun h _ haccepts => ?_) trivial hguard
    rcases turn_spec hdeflate file outCap fullForAppend flushMode h with
      ⟨h', hturn, -⟩ | ⟨s, h', hturn, -⟩
    · rw [hturn]
      trivial
    · rw [hturn]
      rintro r ⟨⟩
      by_contra hs
      exact (turn_fails_iff hout flushMode h).mp ⟨s, h', hturn, hs⟩ haccepts
  rw [deflateLoop] at hresult
  cases hloop : loop .stillRunning (turn deflate file outCap fullForAppend flushMode) fuel z with
  | error e =>
    rw [hloop] at hresult
    cases hresult
  | ok r =>
    obtain ⟨s₁, z₁⟩ := r
    have hs₁ : s₁ = .ok := hok _ hloop
    rw [hloop, hs₁] at hresult
    change (if z₁.avail = [] then _ else _) = _ at hresult
    split_ifs at hresult
    cases hresult
    rfl

/-- A direct loop one of whose turns is not accepted leaves `next_in` in the caller's data. -/
theorem directLoop_caller (hdeflate : Deflates deflate) (hout : 1 ≤ outCap)
    (hcaller : z.nextIn = .caller) {h : State ζ}
    (hh : h ∈ heads (turn deflate file outCap fullForAppend flushMode) fuel z)
    (hreject : ¬ Accepts deflate file flushMode outCap h) :
    ∃ s z', deflateLoop deflate file outCap fuel fullForAppend flushMode z = .ok (s, z') ∧
      z'.nextIn = .caller := by
  obtain ⟨s, z', hturn, hs⟩ := (turn_fails_iff hout flushMode h).mpr hreject
  obtain ⟨m, hloop⟩ := exists_loop_eq Stop.stillRunning hh
  have hcaller' : h.nextIn = .caller :=
    heads_invariant (fun s s' hs h => (turn_caller hdeflate hs).1 s' h) hcaller h hh
  refine ⟨s, z', ?_, (turn_caller hdeflate hcaller').2 s z' hturn⟩
  rw [deflateLoop, hloop, loop, hturn]
  exact if_neg (by rwa [Status.isOk_iff])

/-- **The direct loop** comes back to the own buffer exactly if none of its turns fails. -/
theorem directLoop_owned_iff (hdeflate : Deflates deflate) (hout : 1 ≤ outCap)
    (hcaller : z.nextIn = .caller) :
    (∀ s z', deflateLoop deflate file outCap fuel fullForAppend flushMode z = .ok (s, z') →
      Owned inCap z') ↔
    ∀ h ∈ heads (turn deflate file outCap fullForAppend flushMode) fuel z,
      Accepts deflate file flushMode outCap h := by
  constructor
  · intro howned h hh
    by_contra hreject
    obtain ⟨s, z', hresult, hcaller'⟩ := directLoop_caller hdeflate hout hcaller hh hreject
    obtain ⟨offset, hnext, -⟩ := howned s z' hresult
    rw [hcaller'] at hnext
    cases hnext
  · intro hguard s z' hresult
    have hspec := deflateLoop_spec hdeflate file outCap fuel fullForAppend flushMode z
    rw [hresult] at hspec
    obtain ⟨hnext, havail, -⟩ := hspec.2.2 (directLoop_isOk hdeflate hout hguard hresult)
    exact owned_start hnext havail

/-- Adding to the own buffer stays there. -/
theorem add_owned (hin : inCap < 2 ^ 31) {data : Bytes} {s : Status} (howned : Owned inCap z)
    (hadd : (do
      let z ← addToInputBuffer inCap data z
      return (Status.ok, z) : Access (Status × State ζ)) = .ok (s, z')) : Owned inCap z' := by
  rcases addToInputBuffer_spec hin howned data with ⟨-, offset, heq, hoffset⟩ | ⟨-, heq⟩
  · rw [heq] at hadd
    cases hadd
    exact ⟨offset, rfl, hoffset⟩
  · rw [heq] at hadd
    cases hadd

/-- What follows a call that succeeds. -/
theorem then_owned {x : Access (Status × State ζ)} {k : State ζ → Status × State ζ} {s : Status}
    (hx : ∀ s₁ z₁, x = .ok (s₁, z₁) → Owned inCap z₁)
    (hk : ∀ z₁, Owned inCap z₁ → Owned inCap (k z₁).2)
    (h : (do
      let (s₁, z₁) ← x
      if s₁.isOk then return k z₁ else return (s₁, z₁)) = Except.ok (s, z')) : Owned inCap z' := by
  cases hres : x with
  | error e =>
    rw [hres] at h
    cases h
  | ok r =>
    obtain ⟨s₁, z₁⟩ := r
    have howned : Owned inCap z₁ := hx s₁ z₁ hres
    rw [hres] at h
    change (if s₁.isOk then _ else _) = _ at h
    split_ifs at h
    · have hz' : (k z₁).2 = z' := congrArg Prod.snd (Except.ok.inj h)
      rw [← hz']
      exact hk z₁ howned
    · cases h
      exact howned

theorem drain_owned (hdeflate : Deflates deflate) {last : Bool} {s : Status} (howned : Owned inCap z)
    (hdrain : drain deflate file flushMode outCap fuel last z = .ok (s, z')) : Owned inCap z' :=
  then_owned (fun _ _ h => deflateLoop_owned hdeflate howned h)
    (fun z₁ h => h.consumes (flushOutput_spec file z₁).1) hdrain

/-- **`Append`**: whichever path it takes, only the direct loop can leave the own buffer. -/
theorem append_owned_iff (hdeflate : Deflates deflate) (hin : inCap < 2 ^ 31) (hout : 1 ≤ outCap)
    {data : Bytes} (hclosed : z.closed = false) (howned : Owned inCap z) :
    (∀ s z', append deflate file flushMode inCap outCap fuel data z = .ok (s, z') →
      Owned inCap z') ↔
    ∀ h ∈ directHeads deflate file flushMode inCap outCap fuel z (.append data),
      Accepts deflate file flushMode outCap h := by
  rw [append, directHeads]
  by_cases hfit : toInt data.length ≤ availableInputSpace inCap z
  · rw [if_pos hfit, if_pos (.inr hfit)]
    exact ⟨fun _ h hh => absurd hh List.not_mem_nil, fun _ s z' h => add_owned hin howned h⟩
  · rw [if_neg hfit, if_neg (by rw [hclosed]; simpa using hfit)]
    cases hloop : deflateBuffered deflate file flushMode outCap fuel false z with
    | error e => exact ⟨fun _ h hh => absurd hh List.not_mem_nil, fun _ s z' h => by cases h⟩
    | ok r =>
      obtain ⟨s₁, z₁⟩ := r
      have howned₁ : Owned inCap z₁ := deflateLoop_owned hdeflate howned hloop
      change (∀ s z', (if s₁.isOk then (if toInt data.length ≤ availableInputSpace inCap z₁
        then _ else _) else _) = _ → _) ↔ _
      dsimp only
      by_cases hs₁ : s₁.isOk
      · rw [if_pos hs₁]
        by_cases hfit₁ : toInt data.length ≤ availableInputSpace inCap z₁
        · rw [if_pos hfit₁, if_pos (.inr hfit₁)]
          exact ⟨fun _ h hh => absurd hh List.not_mem_nil, fun _ s z' h => add_owned hin howned₁ h⟩
        · rw [if_neg hfit₁, if_neg (by rw [hs₁]; simpa using hfit₁)]
          exact directLoop_owned_iff hdeflate hout rfl
      · rw [if_neg hs₁, if_pos (.inl (Bool.not_eq_true _ ▸ hs₁))]
        refine ⟨fun _ h hh => absurd hh List.not_mem_nil, fun _ s z' h => ?_⟩
        cases h
        exact howned₁

/-- **One call** ends in the own buffer exactly if no turn of the direct loop fails. -/
theorem step_owned_iff (hdeflate : Deflates deflate) (hin : inCap < 2 ^ 31) (hout : 1 ≤ outCap)
    (z : State ζ) (op : Op) (howned : Owned inCap z) :
    (∀ z' ∈ reached (step deflate file sync flushMode inCap outCap fuel) z op, Owned inCap z') ↔
    ∀ h ∈ directHeads deflate file flushMode inCap outCap fuel z op,
      Accepts deflate file flushMode outCap h := by
  rw [forall_reached]
  by_cases hclosed : z.closed = true
  · have hnone : directHeads deflate file flushMode inCap outCap fuel z op = [] := by
      cases op with
      | append data => exact if_pos (.inl hclosed)
      | flush => rfl
      | sync => rfl
      | close => rfl
    rw [hnone]
    refine ⟨fun _ h hh => absurd hh List.not_mem_nil, fun _ s z' h => ?_⟩
    unfold step at h
    rw [if_pos hclosed] at h
    cases h
  · unfold step
    simp only [hclosed, Bool.false_eq_true, if_false]
    cases op with
    | append data =>
      exact append_owned_iff hdeflate hin hout (Bool.not_eq_true _ ▸ hclosed) howned
    | flush =>
      exact ⟨fun _ h hh => absurd hh List.not_mem_nil,
        fun _ s z' h => drain_owned hdeflate howned h⟩
    | sync =>
      exact ⟨fun _ h hh => absurd hh List.not_mem_nil, fun _ s z' h =>
        then_owned (x := drain deflate file flushMode outCap fuel false z)
          (k := fun z => (sync z.appends, z)) (fun _ _ h => drain_owned hdeflate howned h)
          (fun _ h => h) h⟩
    | close =>
      exact ⟨fun _ h hh => absurd hh List.not_mem_nil, fun _ s z' h =>
        then_owned (x := drain deflate file flushMode outCap fuel true z)
          (k := fun z => (.ok, { z with closed := true })) (fun _ _ h => drain_owned hdeflate howned h)
          (fun _ h => h) h⟩

end

/-- **Between the calls the stream reads from the own buffer exactly if no turn of the direct loop
fails**: for every file that may fail at any `Append`, every `deflate` and all sizes, all states a run of
public calls reaches have `next_in` and the unread bytes inside `z_stream_input_` if and only if every
turn that deflates straight out of the caller's data has a file that takes the full output buffer and a
`deflate` that succeeds. -/
theorem zlibOutputBuffer_owned_iff {ζ : Type} (deflate : ζ → Bytes → ℕ → ℤ → DeflateResult ζ)
    (hdeflate : Deflates deflate) (file : WritableFile) (sync : Appends → Status) (flushMode : ℤ)
    (inCap outCap fuel : ℕ) (hin : inCap < 2 ^ 31) (created : Except ℤ ζ) (z₀ : State ζ)
    (hinit : initBuffer outCap created = .ok z₀) (ops : List Op) :
    (∀ z ∈ visits (reached (step deflate file sync flushMode inCap outCap fuel))
        (step deflate file sync flushMode inCap outCap fuel) z₀ ops, Owned inCap z) ↔
      ∀ h ∈ visits (directHeads deflate file flushMode inCap outCap fuel)
        (step deflate file sync flushMode inCap outCap fuel) z₀ ops,
        Accepts deflate file flushMode outCap h := by
  have hout : 1 ≤ outCap := by
    unfold initBuffer at hinit
    split_ifs at hinit with hsmall
    omega
  exact reached_iff_guarded
    (fun z op howned => step_owned_iff hdeflate hin hout z op howned) (kept_init inCap hinit).2.1

/-- A file whose first `Append` fails. -/
def WritableFile.failsOnce : WritableFile :=
  ⟨fun appends _ => if appends = [] then .error .unknown "" else .ok⟩

/-- Two bytes through buffers of one and sixteen are deflated out of the caller's data. -/
theorem zlibOutputBuffer_owned_iff_small :
    (∀ z ∈ visits (reached (step storedDeflate WritableFile.roomy (fun _ => .ok) zSyncFlush 1 16 3))
        (step storedDeflate WritableFile.roomy (fun _ => .ok) zSyncFlush 1 16 3)
        ⟨.own 0, [], [], [], [], [], false⟩ [.append [0x61, 0x62]], Owned 1 z) ↔
      ∀ h ∈ visits (directHeads storedDeflate WritableFile.roomy zSyncFlush 1 16 3)
        (step storedDeflate WritableFile.roomy (fun _ => .ok) zSyncFlush 1 16 3)
        ⟨.own 0, [], [], [], [], [], false⟩ [.append [0x61, 0x62]],
        Accepts storedDeflate WritableFile.roomy zSyncFlush 16 h :=
  zlibOutputBuffer_owned_iff storedDeflate storedDeflate_deflates WritableFile.roomy (fun _ => .ok)
    zSyncFlush 1 16 3 (by decide) (.ok []) ⟨.own 0, [], [], [], [], [], false⟩ rfl
    [.append [0x61, 0x62]]

/-- The first write to the file fails in the direct loop: `next_in` is left in the data of a caller who
has been given the error, and the next call moves bytes from there. -/
theorem zlibOutputBuffer_not_owned :
    ¬ (∀ z ∈ visits
        (reached (step storedDeflate WritableFile.failsOnce (fun _ => .ok) zSyncFlush 1 8 3))
        (step storedDeflate WritableFile.failsOnce (fun _ => .ok) zSyncFlush 1 8 3)
        ⟨.own 0, [], [], [], [], [], false⟩ [.append [0x61, 0x62]], Owned 1 z) ∧
      run (step storedDeflate WritableFile.failsOnce (fun _ => .ok) zSyncFlush 1 8 3)
        ⟨.own 0, [], [], [], [], [], false⟩ [.append [0x61, 0x62], .append [0x63]]
        = .error .outOfBounds := by
  constructor
  · intro howned
    obtain ⟨offset, hnext, -⟩ := howned _ List.mem_cons_self
    cases hnext
  · rfl

end LearnNetlib.ZlibOutputBuffer
