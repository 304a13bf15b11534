import LearnNetlib.Base.Bytes
import LearnNetlib.Base.Status

/-!
# Files

* `WritableFile`, `Appends` — a file being appended to, where any call may fail;
* `RandomAccessFile` — the interface: what one `Read(offset, n, &result, scratch)` leaves behind;
* `Stores` — the file returns its bytes faithfully inside its bounds;
* `Exact` — a read that succeeds returns exactly as many bytes as asked for;
* `Serves` — it also answers short reads as `LinuxRandomAccessFile` does;
* `linuxRead` — the `pread` loop of `base/platform/linux/linux_file_system.cc` over a regular file
  (`RegularFile`, which may return fewer bytes than asked), and **`linuxRandomAccessFile_serves`**.
-/

namespace LearnNetlib

/-- What one `Read` leaves: its status, the bytes `*result` points at, and whether `*result` points
into the caller's `scratch`. -/
structure ReadResult where
  status : Status
  data : Bytes
  inScratch : Bool
  deriving Repr, DecidableEq

/-- `RandomAccessFile`: a read at `offset` of `n` bytes. -/
structure RandomAccessFile where
  read : (offset n : ℕ) → ReadResult

/-- The calls of `Append` on a file so far: what was to be written, and the status returned. -/
abbrev Appends := List (Bytes × Status)

/-- `WritableFile`: the status of the next `Append`, whatever it depends on. -/
structure WritableFile where
  append : Appends → (data : Bytes) → Status

namespace Appends

/-- What the calls have put into the file. -/
def bytes (appends : Appends) : Bytes := appends.flatMap Prod.fst

/-- Nothing has failed; or the last call is the first that failed, with the status `s`. -/
def FailsOnce (appends : Appends) (s : Status) : Prop :=
  (s = .ok ∧ ∀ a ∈ appends, a.2 = .ok) ∨
    (s ≠ .ok ∧ ∃ good data, appends = good ++ [(data, s)] ∧ ∀ a ∈ good, a.2 = .ok)

@[simp] theorem bytes_snoc (appends : Appends) (data : Bytes) (s : Status) :
    bytes (appends ++ [(data, s)]) = appends.bytes ++ data := by
  simp [bytes]

/-- One more call after none has failed. -/
theorem FailsOnce.snoc {appends : Appends} (h : appends.FailsOnce .ok) (data : Bytes) (s : Status) :
    FailsOnce (appends ++ [(data, s)]) s := by
  have hall : ∀ a ∈ appends, a.2 = .ok := by
    rcases h with h | h
    · exact h.2
    · exact absurd rfl h.1
  by_cases hs : s = .ok
  · refine .inl ⟨hs, ?_⟩
    intro a ha
    rcases List.mem_append.mp ha with ha | ha
    · exact hall a ha
    · rw [List.mem_singleton.mp ha]
      exact hs
  · exact .inr ⟨hs, appends, data, rfl, hall⟩

end Appends

/-- A file cannot grow beyond what a `uint64` offset other than `~0` can address. -/
def WritableFile.Addressable (file : WritableFile) : Prop :=
  ∀ appends data, file.append appends data = .ok → appends.bytes.length + data.length < 2 ^ 64 - 1

/-- A file that accepts what it can address. -/
def WritableFile.roomy : WritableFile :=
  ⟨fun appends data => if appends.bytes.length + data.length < 2 ^ 64 - 1 then .ok
    else Errors.outOfRange "file too large"⟩

theorem WritableFile.roomy_addressable : WritableFile.roomy.Addressable := by
  intro appends data h
  rw [roomy] at h
  dsimp only at h
  split_ifs at h with hlt
  · exact hlt
  · simp [Errors.outOfRange] at h

namespace RandomAccessFile

/-- Reads inside the file return exactly its bytes. -/
def Stores (file : RandomAccessFile) (contents : Bytes) : Prop :=
  ∀ offset n, offset + n ≤ contents.length →
    (file.read offset n).status = .ok ∧
    (file.read offset n).data = (contents.drop offset).take n

/-- A read that succeeds returns as many bytes as were asked for. -/
def Exact (file : RandomAccessFile) : Prop :=
  ∀ offset n, (file.read offset n).status = .ok → (file.read offset n).data.length = n

/-- The status of a read of `n` bytes of which `available` exist. -/
def readStatus (n available : ℕ) : Status :=
  if n ≤ available then .ok else Errors.outOfRange "Read less bytes than requested"

/-- Reads return the bytes available, and `OUT_OF_RANGE` when fewer than asked. -/
structure Serves (file : RandomAccessFile) (contents : Bytes) : Prop where
  data : ∀ offset n, (file.read offset n).data = (contents.drop offset).take n
  status : ∀ offset n,
    (file.read offset n).status = readStatus n (contents.length - offset)

theorem Serves.stores {file : RandomAccessFile} {contents : Bytes} (h : file.Serves contents) :
    file.Stores contents := by
  intro offset n hn
  refine ⟨?_, h.data offset n⟩
  rw [h.status, readStatus, if_pos (by omega)]

theorem Serves.exact {file : RandomAccessFile} {contents : Bytes} (h : file.Serves contents) :
    file.Exact := by
  intro offset n hok
  rw [h.status, readStatus] at hok
  rw [h.data, List.length_take, List.length_drop]
  split_ifs at hok with hn
  · omega
  · simp [Errors.outOfRange] at hok

end RandomAccessFile

/-! ### `LinuxRandomAccessFile` -/

/-- A regular file behind `pread`: it returns some of the bytes asked for, and none only when there
are none. -/
structure RegularFile (contents : Bytes) where
  pread : (offset n : ℕ) → Bytes
  isPrefix : ∀ offset n, pread offset n <+: (contents.drop offset).take n
  progress : ∀ offset n, 0 < n → offset < contents.length → pread offset n ≠ []

/-- The loop of `LinuxRandomAccessFile::Read`; every turn but the last fills at least one byte. -/
def linuxReadLoop {contents : Bytes} (f : RegularFile contents) :
    ℕ → (offset n : ℕ) → (scratch : Bytes) → Status → Status × Bytes
  | 0, _, _, scratch, s => (s, scratch)
  | turns + 1, offset, n, scratch, s =>
    if n > 0 ∧ s.isOk then
      let r := f.pread offset n
      if r.length > 0 then
        linuxReadLoop f turns (offset + r.length) (n - r.length) (scratch ++ r) s
      else
        linuxReadLoop f turns offset n scratch
          (Errors.outOfRange "Read less bytes than requested")
    else (s, scratch)

/-- `LinuxRandomAccessFile::Read`. -/
def linuxRead {contents : Bytes} (f : RegularFile contents) (offset n : ℕ) : ReadResult :=
  let r := linuxReadLoop f (n + 2) offset n [] .ok
  ⟨r.1, r.2, true⟩

/-- `LinuxRandomAccessFile`. -/
def linuxRandomAccessFile {contents : Bytes} (f : RegularFile contents) : RandomAccessFile :=
  ⟨linuxRead f⟩

/-- The regular file whose `pread` always returns everything there is. -/
def RegularFile.whole (contents : Bytes) : RegularFile contents where
  pread offset n := (contents.drop offset).take n
  isPrefix _ _ := List.prefix_rfl
  progress offset n hn hoff := by
    intro h
    have hlen := congrArg List.length h
    simp only [List.length_take, List.length_drop, List.length_nil] at hlen
    omega

theorem linuxReadLoop_spec {contents : Bytes} (f : RegularFile contents) (turns offset n : ℕ)
    (scratch : Bytes) (hturns : n + 2 ≤ turns) :
    linuxReadLoop f turns offset n scratch .ok
      = (RandomAccessFile.readStatus n (contents.length - offset),
          scratch ++ (contents.drop offset).take n) := by
  induction turns generalizing offset n scratch with
  | zero => omega
  | succ turns ih =>
    rw [linuxReadLoop]
    rcases Nat.eq_zero_or_pos n with rfl | hn
    · simp [RandomAccessFile.readStatus]
    · rw [if_pos ⟨hn, rfl⟩]
      obtain ⟨rest, hrest⟩ := f.isPrefix offset n
      have hlen := congrArg List.length hrest
      rw [List.length_append, List.length_take, List.length_drop] at hlen
      by_cases hr : (f.pread offset n).length > 0
      · -- some bytes came: the rest of the request is served by the remaining turns
        have hdrop : ((contents.drop (offset + (f.pread offset n).length)).take
            (n - (f.pread offset n).length)) = rest := by
          rw [← List.drop_drop, ← List.drop_take, ← hrest, List.drop_left]
        simp only [hr, if_true]
        rw [ih _ _ _ (by omega), hdrop, List.append_assoc, hrest]
        congr 1
        rw [RandomAccessFile.readStatus, RandomAccessFile.readStatus]
        congr 1
        exact propext ⟨fun h => by omega, fun h => by omega⟩
      · -- end of file
        have hoff : contents.length ≤ offset := by
          by_contra hlt
          exact f.progress offset n hn (by omega) (List.length_eq_zero_iff.mp (by omega))
        simp only [hr, if_false]
        obtain ⟨turns, rfl⟩ : ∃ m, turns = m + 1 := ⟨turns - 1, by omega⟩
        rw [linuxReadLoop, if_neg (by simp [Errors.outOfRange]), RandomAccessFile.readStatus,
          if_neg (by omega), List.drop_of_length_le hoff]
        simp

/-- **The `pread` loop serves the file**, however the kernel cuts the reads. -/
theorem linuxRandomAccessFile_serves {contents : Bytes} (f : RegularFile contents) :
    (linuxRandomAccessFile f).Serves contents where
  data offset n := by
    change (linuxReadLoop f (n + 2) offset n [] .ok).2 = _
    rw [linuxReadLoop_spec f _ _ _ _ le_rfl, List.nil_append]
  status offset n := by
    change (linuxReadLoop f (n + 2) offset n [] .ok).1 = _
    rw [linuxReadLoop_spec f _ _ _ _ le_rfl]

end LearnNetlib
