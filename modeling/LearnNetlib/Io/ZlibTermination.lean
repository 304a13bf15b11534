import LearnNetlib.Io.ZlibInputStream

/-!
# Does `ZlibInputStream::ReadNBytes` return?

* `FiniteStream` — the stream below runs out;
* `Advances` — what is relied on of `inflate` here: it consumes, produces or fails, until its stream
  has ended, and then does nothing;
* `Stuck` — the heads the loop never leaves: `inflate` has ended and unread input is left;
* `turn_advances` — at any other head a turn uses something up;
* **`readNBytes_terminates_iff`** — the call returns exactly if it reaches no stuck head.
-/

namespace LearnNetlib.ZlibInputStream

open LearnNetlib.Loops LearnNetlib.Stream

section

variable {σ ζ : Type} {stream : InputStreamInterface σ}
  {inflate : ζ → Bytes → ℕ → InflateResult ζ} {inCap outCap : ℕ} {left : σ → ℕ} {Ended : ζ → Prop}

/-- A stream of which `left` bytes are left at most, whatever its reads return. -/
def FiniteStream (stream : InputStreamInterface σ) (left : σ → ℕ) : Prop :=
  ∀ n s, ∃ status data s', stream.readNBytes n s = .ok (status, data, s') ∧
    data.length + left s' ≤ left s

/-- What `inflate` does on any input: each call consumes input, produces output or returns an error,
except that after the end of its stream it keeps returning `Z_STREAM_END`. -/
structure Advances (inflate : ζ → Bytes → ℕ → InflateResult ζ) (Ended : ζ → Prop) : Prop where
  bound : ∀ z input availOut, (inflate z input availOut).consumed ≤ input.length ∧
    (inflate z input availOut).output.length ≤ availOut
  advance : ∀ z input availOut, ¬ Ended z →
    (inflate z input availOut).code = zOk ∨ (inflate z input availOut).code = zStreamEnd →
    (inflate z input availOut).consumed ≠ 0 ∨ (inflate z input availOut).output ≠ []
  ended : ∀ z input availOut, Ended z → (inflate z input availOut).code = zStreamEnd ∧
    (inflate z input availOut).consumed = 0 ∧ (inflate z input availOut).output = [] ∧
    Ended (inflate z input availOut).inflater

/-- The stream of `inflate` has ended, unread bytes are left behind it, and more is asked for; and the
check on the output buffer passes. -/
def Stuck (Ended : ζ → Prop) (outCap : ℕ) (h : Head σ ζ) : Prop :=
  0 < h.remaining ∧ h.z.avail ≠ [] ∧ Ended h.z.inflater ∧
    outCap < 2 ^ 32 ∧ numUnreadBytes outCap h.z = 0

/-- **A stuck head is followed by a stuck head.** -/
theorem turn_stuck (hinflate : Advances inflate Ended) {h : Head σ ζ} (hstuck : Stuck Ended outCap h) :
    ∃ h', turn stream inflate inCap outCap h = .ok (.inl h') ∧ Stuck Ended outCap h' := by
  obtain ⟨hrem, havail, hended, hcap, hunread⟩ := hstuck
  obtain ⟨hcode, hconsumed, houtput, hended'⟩ :=
    hinflate.ended h.z.inflater h.z.avail (toUInt outCap) hended
  have hneg : ¬ h.remaining < 0 := by omega
  rw [turn, if_pos hrem, if_neg (not_not.mpr hunread), fillInput, if_neg havail, Access.ok_bind]
  simp only [inflateMore, setupOutput, State.advance, hcode, hconsumed, houtput, Status.isOk_ok, if_true,
    List.drop_zero, List.append_nil, List.length_nil, ne_eq, not_true_eq_false, and_false, if_false,
    readBytesFromCache, hneg, Nat.min_zero, List.take_zero, List.drop_nil]
  refine ⟨_, rfl, by simpa using hrem, havail, hended', hcap, ?_⟩
  rw [numUnreadBytes]
  simp [toUInt_of_lt hcap]

/-- What is left to be used up; the last summand is about states with a mismatched output buffer. -/
def budget (left : σ → ℕ) (outCap : ℕ) (h : Head σ ζ) : ℕ :=
  2 * left h.z.inner + h.z.avail.length + h.remaining.toNat +
    if numUnreadBytes outCap h.z = 0 ∧ ¬ outCap < 2 ^ 32 then 1 else 0

/-- Filling the input buffer uses up the stream below. -/
theorem fillInput_finite (hstream : FiniteStream stream left) (z : State σ ζ) :
    ∃ s inner avail, fillInput stream inCap z
        = .ok (s, { z with inner := inner, avail := avail }) ∧
      left inner + avail.length ≤ left z.inner + z.avail.length ∧ left inner ≤ left z.inner ∧
      (s = .ok → z.avail = [] → left inner < left z.inner) := by
  rw [fillInput]
  split_ifs with havail
  · obtain ⟨status, data, inner, hread, hle⟩ := hstream (toInt inCap) z.inner
    rw [readFromStream, if_pos havail, hread, Access.ok_bind]
    dsimp only
    rw [havail, List.nil_append, List.length_nil]
    split_ifs with hs hdata
    · exact ⟨_, _, _, rfl, by omega, by omega, fun h => by simp [Errors.outOfRange] at h⟩
    · have hpos := List.length_pos_iff.mpr hdata
      exact ⟨_, _, _, rfl, by omega, by omega, fun _ _ => by omega⟩
    · rw [not_or] at hs
      refine ⟨_, _, _, rfl, by omega, by omega, fun h => ?_⟩
      rw [h] at hs
      exact absurd rfl hs.1
  · exact ⟨_, _, _, rfl, le_rfl, le_rfl, fun _ h => absurd h havail⟩

/-- A turn sets up the output buffer so that, if its size does not fit an `uInt`, the check fails. -/
theorem setup_mismatch {z : State σ ζ} {room taken : ℕ} (hroom : room ≤ toUInt outCap)
    (htaken : taken ≤ room) (hz : z.availOut = toUInt outCap - room) (hread : z.readBytes = taken) :
    ¬ (numUnreadBytes outCap z = 0 ∧ ¬ outCap < 2 ^ 32) := by
  rintro ⟨hzero, hcap⟩
  have hlt : toUInt outCap < 2 ^ 32 := Nat.mod_lt _ (by decide)
  rw [numUnreadBytes, hz, hread] at hzero
  omega

/-- `Inflate` succeeds exactly if `inflate` does. -/
theorem inflateMore_isOk {z : State σ ζ} (h : (inflateMore inflate z).1.isOk = true) :
    ((inflate z.inflater z.avail z.availOut).code = zOk ∨
      (inflate z.inflater z.avail z.availOut).code = zStreamEnd) ∧
    (inflateMore inflate z).2 = z.advance (inflate z.inflater z.avail z.availOut) := by
  rw [inflateMore] at h ⊢
  dsimp only at h ⊢
  split_ifs at h ⊢ with hcode
  · simp [Errors.dataLoss] at h
  · exact ⟨by tauto, rfl⟩

/-- **At any other head a turn fails, leaves or uses something up.** -/
theorem turn_advances (hstream : FiniteStream stream left) (hinflate : Advances inflate Ended)
    {h : Head σ ζ} (hstuck : ¬ Stuck Ended outCap h) :
    (∃ h', turn stream inflate inCap outCap h = .ok (.inl h') ∧
        budget left outCap h' < budget left outCap h) ∨
      (∃ o, turn stream inflate inCap outCap h = .ok (.inr o)) ∨
      turn stream inflate inCap outCap h = .error .assertFailed := by
  rw [turn]
  split_ifs with hrem hunread
  · exact .inr (.inr rfl)
  · obtain ⟨s, inner, avail, hfill, hleft, hmono, hless⟩ := fillInput_finite hstream h.z
    rw [hfill, Access.ok_bind]
    dsimp only
    split_ifs with hs hinf
    · obtain ⟨hcode, hstate⟩ := inflateMore_isOk hinf
      rw [hstate]
      refine .inl ⟨_, rfl, ?_⟩
      obtain ⟨hconsumed, hroom⟩ := hinflate.bound h.z.inflater avail (toUInt outCap)
      have hadvance := hinflate.advance h.z.inflater avail (toUInt outCap)
      have hneg : ¬ h.remaining < 0 := by omega
      dsimp only [setupOutput] at hcode ⊢
      generalize inflate h.z.inflater avail (toUInt outCap) = r at *
      simp only [State.advance, readBytesFromCache, hneg, if_false, List.nil_append]
      rw [budget, budget, if_neg (setup_mismatch hroom (Nat.min_le_right _ _) rfl (Nat.zero_add _))]
      dsimp only
      rw [List.length_take, List.length_drop]
      by_cases hended : Ended h.z.inflater
      · by_cases havail : h.z.avail = []
        · -- the stream below has become shorter
          have := hless (by rwa [← Status.isOk_iff]) havail
          rw [havail, List.length_nil] at hleft ⊢
          omega
        · have hcap : ¬ outCap < 2 ^ 32 := fun hcap =>
            hstuck ⟨hrem, havail, hended, hcap, not_not.mp hunread⟩
          rw [if_pos ⟨not_not.mp hunread, hcap⟩]
          omega
      · rcases hadvance hended hcode with hin | hout
        · omega
        · have := List.length_pos_iff.mpr hout
          omega
    · exact .inr (.inl ⟨_, rfl⟩)
    · exact .inr (.inl ⟨_, rfl⟩)
  · exact .inr (.inl ⟨_, rfl⟩)

end

/-- **`ReadNBytes` returns exactly if it reaches no head at which `inflate` has ended before the end of
the input buffer** — from every state, over every finite stream, for every size of the buffers and of
the request. -/
theorem readNBytes_terminates_iff {σ ζ : Type} (stream : InputStreamInterface σ) (left : σ → ℕ)
    (hstream : FiniteStream stream left) (inflate : ζ → Bytes → ℕ → InflateResult ζ)
    (Ended : ζ → Prop) (hinflate : Advances inflate Ended) (inCap outCap : ℕ) (n : ℤ)
    (z : State σ ζ) :
    (∃ fuel, readNBytes stream inflate inCap outCap fuel n z ≠ .error .stillRunning) ↔
      ∀ fuel, ∀ h ∈ heads (turn stream inflate inCap outCap) fuel (enter n z),
        ¬ Stuck Ended outCap h := by
  constructor
  · rintro ⟨fuel, hreturns⟩ fuel' h hmem hstuck
    -- with as many turns as both, the loop reaches the head and is never left
    have hreturns' := loop_mono (Nat.le_max_left fuel fuel') hreturns
    obtain ⟨m, hloop⟩ := exists_loop_eq .stillRunning (heads_mono (Nat.le_max_right fuel fuel') hmem)
    rw [hloop, loop_forever (fun _ h => turn_stuck hinflate h) (m + 1) hstuck] at hreturns'
    exact hreturns hreturns'.symm
  · intro hnever
    refine ⟨budget left outCap (enter n z) + 1, ?_⟩
    refine loop_total_of_heads (fun _ => True) (fun h => ¬ Stuck Ended outCap h)
      (fun r => r ≠ .error .stillRunning) (budget left outCap) (fun h _ hguard => ?_) trivial
      (Nat.lt_succ_self _) (hnever _)
    rcases turn_advances hstream hinflate hguard with ⟨h', hgo, hless⟩ | ⟨o, hleave⟩ | hfail
    · exact .inl ⟨h', hgo, trivial, hless⟩
    · exact .inr (.inl ⟨o, hleave, by simp⟩)
    · exact .inr (.inr ⟨.assertFailed, hfail, by simp⟩)

/-! ### Trailing bytes -/

theorem wholeInflate_advances : Advances wholeInflate fun z => z = ([], []) where
  bound z input availOut := by
    refine ⟨Nat.min_le_left _ _, ?_⟩
    rw [wholeInflate]
    dsimp only
    split_ifs
    · exact List.length_take_le _ _
    · exact Nat.zero_le _
  advance z input availOut hended hcode := by
    by_contra hnone
    rw [not_or, not_not, not_not] at hnone
    obtain ⟨hconsumed, houtput⟩ := hnone
    -- nothing has changed, so the code is that of no progress
    have hsame : ¬ (z.1.drop (wholeInflate z input availOut).consumed,
        z.2.drop (wholeInflate z input availOut).output.length) = ([], []) := by
      rwa [hconsumed, houtput]
    have hfail : (wholeInflate z input availOut).code = -5 :=
      (if_neg hsame).trans (if_pos ⟨hconsumed, houtput⟩)
    rw [hfail] at hcode
    rcases hcode with h | h <;> cases h
  ended z input availOut := by
    rintro rfl
    refine ⟨?_, ?_, ?_, ?_⟩ <;> simp [wholeInflate]

/-- A file's stream over what it holds runs out. -/
theorem randomAccessInputStream_finite {contents : Bytes} {file : ReadableFile}
    (hfile : file.Answers contents) (fuel : ℕ) :
    FiniteStream (randomAccessInputStream file fuel) fun r => contents.length - r.pos := by
  intro n r
  refine ⟨(r.readNBytes file n).1, (r.readNBytes file n).2.1, (r.readNBytes file n).2.2, rfl, ?_⟩
  rw [RandomAccessState.readNBytes]
  split_ifs with hn
  · rw [List.length_nil, Nat.zero_add]
  · simp only [hfile.data, hfile.status, if_true]
    have hlen := window_length contents r.pos n.toNat
    split_ifs
    · dsimp only
      omega
    · dsimp only
      omega

/-- Eleven bytes asked of a stream without anything behind it. -/
theorem readNBytes_terminates_iff_small :
    (∃ fuel, readNBytes (randomAccessInputStream (steadyFile (linuxRandomAccessFile
        (RegularFile.whole rawStream))) 6) wholeInflate 6 16 fuel 11
        (initZlibBuffer 16 (rawStream, List.replicate 10 0x90) ⟨0, []⟩) ≠ .error .stillRunning) ↔
      ∀ fuel, ∀ h ∈ heads (turn (randomAccessInputStream (steadyFile (linuxRandomAccessFile
        (RegularFile.whole rawStream))) 6) wholeInflate 6 16) fuel
        (enter 11 (initZlibBuffer 16 (rawStream, List.replicate 10 0x90) ⟨0, []⟩)),
        ¬ Stuck (fun z => z = ([], [])) 16 h :=
  readNBytes_terminates_iff _ _
    (randomAccessInputStream_finite (steadyFile_answers (linuxRandomAccessFile_serves
      (RegularFile.whole rawStream))) 6)
    wholeInflate _ wholeInflate_advances 6 16 11 _

/-- The raw stream, and one byte behind it. -/
def trailingStream : Bytes := rawStream ++ [0x00]

/-- **One trailing byte**: a request for eleven of the ten bytes never returns. -/
theorem readNBytes_never_returns :
    ¬ ∃ fuel, readNBytes (randomAccessInputStream (steadyFile (linuxRandomAccessFile
        (RegularFile.whole trailingStream))) 7) wholeInflate 6 16 fuel 11
        (initZlibBuffer 16 (rawStream, List.replicate 10 0x90) ⟨0, []⟩) ≠ .error .stillRunning := by
  intro h
  obtain ⟨fuel, hreturns⟩ := h
  apply hreturns
  cases fuel with
  | zero => rfl
  | succ fuel =>
    -- the first turn decompresses everything and leaves the trailing byte
    obtain ⟨h, hturn, hstuck⟩ : ∃ h : Head RandomAccessState (Bytes × Bytes),
        turn (randomAccessInputStream (steadyFile (linuxRandomAccessFile
          (RegularFile.whole trailingStream))) 7) wholeInflate 6 16
          (enter 11 (initZlibBuffer 16 (rawStream, List.replicate 10 0x90) ⟨0, []⟩)) = .ok (.inl h) ∧
        Stuck (fun z => z = ([], [])) 16 h :=
      ⟨_, rfl, by decide, by decide, by decide, by decide, by decide⟩
    rw [readNBytes, loop, hturn]
    exact loop_forever (fun _ h => turn_stuck wholeInflate_advances h) fuel hstuck

end LearnNetlib.ZlibInputStream
