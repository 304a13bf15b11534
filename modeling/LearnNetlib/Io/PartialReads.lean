import LearnNetlib.Io.BufferedInputStream

/-!
# A `BufferedInputStream` over a file whose reads fail in part

A read may return an error together with some of the bytes.  `RandomAccessInputStream` then hands on
the bytes and stays where it is.

* `ReadCall.Clean`, `stray` — a read that does not do so, and how many bytes it is about;
* `Accounts` — the invariant: `Tell()` and the stray bytes together make up what has been delivered;
* `readNBytes_accounts` — one call keeps it;
* **`reads_contiguous_iff`** — the calls deliver one run of the file, `Tell()` in front of the next
  byte, exactly if every read was clean.
-/

namespace LearnNetlib.BufferedInputStream

open LearnNetlib.Runs LearnNetlib.Stream
open InputBuffer (Out window window_add)

/-! ### Clean reads -/

/-- Every read returns the first of the bytes that are there, whatever its status. -/
def Faithful (file : ReadableFile) (contents : Bytes) : Prop :=
  ∀ reads offset n, (file.read reads offset n).data <+: window contents offset n

/-- The read brings no bytes, or has not failed. -/
def Clean (r : ReadCall) : Prop :=
  r.result.status.isOk = true ∨ Errors.isOutOfRange r.result.status = true ∨ r.result.data = []

/-- How many bytes come with an error. -/
def stray (r : ReadCall) : ℕ :=
  if r.result.status.isOk ∨ Errors.isOutOfRange r.result.status then 0 else r.result.data.length

theorem stray_eq_zero_iff (r : ReadCall) : stray r = 0 ↔ Clean r := by
  rw [stray, Clean]
  split_ifs with h
  · exact ⟨fun _ => by rcases h with h | h <;> simp [h], fun _ => rfl⟩
  · rw [List.length_eq_zero_iff]
    exact ⟨fun h => .inr (.inr h), fun hclean => by tauto⟩

/-- All that came with an error. -/
def strays (reads : List ReadCall) : ℕ := (reads.map stray).sum

theorem strays_append (l l' : List ReadCall) : strays (l ++ l') = strays l + strays l' := by
  rw [strays, List.map_append, List.sum_append, strays, strays]

@[simp] theorem strays_snoc (l : List ReadCall) (r : ReadCall) :
    strays (l ++ [r]) = strays l + stray r := by
  rw [strays_append, strays, strays, List.map_singleton, List.sum_singleton]

theorem strays_eq_zero_iff (reads : List ReadCall) : strays reads = 0 ↔ ∀ r ∈ reads, Clean r := by
  induction reads with
  | nil => simp [strays]
  | cons r reads ih =>
    have hcons : strays (r :: reads) = stray r + strays reads := by
      rw [strays, List.map_cons, List.sum_cons, strays]
    rw [hcons, Nat.add_eq_zero_iff, stray_eq_zero_iff, ih, List.forall_mem_cons]

theorem strays_mono {l l' : List ReadCall} (h : l <+: l') : strays l ≤ strays l' := by
  obtain ⟨t, rfl⟩ := h
  rw [strays_append]
  exact Nat.le_add_right _ _

/-! ### What is delivered -/

/-- The first bytes of a window are a window. -/
theorem eq_window_of_prefix {contents data : Bytes} {p n : ℕ} (h : data <+: window contents p n) :
    data = window contents p data.length := by
  have hle := h.length_le
  have htake := List.prefix_iff_eq_take.mp h
  rw [window_length] at hle
  rwa [window, List.take_take, Nat.min_eq_left (by omega)] at htake

/-- The calls deliver one run of the file from `p` on, each with `Tell()` in front of the next byte. -/
def Contiguous (contents : Bytes) : ℕ → List Out → Prop
  | _, [] => True
  | p, o :: os =>
    o.data = window contents p o.data.length ∧ o.tell = (p + o.data.length : ℕ) ∧
      Contiguous contents (p + o.data.length) os

/-- Together they are a window. -/
theorem Contiguous.concat {contents : Bytes} {outs : List Out} {p : ℕ}
    (h : Contiguous contents p outs) :
    outs.flatMap Out.data = window contents p (outs.flatMap Out.data).length := by
  induction outs generalizing p with
  | nil => rfl
  | cons o os ih =>
    obtain ⟨hdata, -, hrest⟩ := h
    rw [List.flatMap_cons, List.length_append, window_add, ← ih hrest, ← hdata]

/-! ### The invariant -/

section

variable {contents : Bytes} {file : ReadableFile} {size fuel p : ℕ} {b : State RandomAccessState}

/-- The next byte is the one after `p` delivered ones: `Tell()` falls behind by the stray bytes, and
while there are none the buffer holds what is in front of `p`. -/
structure Accounts (contents : Bytes) (b : State RandomAccessState) (p : ℕ) : Prop where
  pos_le : b.pos ≤ b.limit
  limit_le : b.limit ≤ b.buf.length
  position : b.inner.pos + strays b.inner.reads = p + (b.limit - b.pos)
  unread : strays b.inner.reads = 0 →
    (b.buf.drop b.pos).take (b.limit - b.pos) = window contents p (b.limit - b.pos)

theorem Accounts.tell_eq (h : Accounts contents b p) :
    tell (randomAccessInputStream file fuel) b + strays b.inner.reads = p := by
  have h1 := h.pos_le
  have h2 := h.position
  rw [tell, randomAccessInputStream]
  dsimp only
  omega

/-- Without stray bytes this is what it is over a file that does not fail. -/
theorem Accounts.tracks (h : Accounts contents b p) (hclean : strays b.inner.reads = 0) :
    Tracks contents (fun p r => r.pos = p) b p :=
  ⟨h.pos_le, h.limit_le, by have := h.position; omega, h.unread hclean⟩

theorem Accounts.advance (h : Accounts contents b p) {k : ℕ} (hk : k ≤ b.limit - b.pos) :
    Accounts contents { b with pos := b.pos + k } (p + k) := by
  have h1 := h.pos_le
  have h2 := h.position
  refine ⟨by dsimp only; omega, h.limit_le, by dsimp only; omega, ?_⟩
  exact fun hclean => ((h.tracks hclean).advance hk).unread

/-- **One read of the stream**: the position and the stray bytes together move by what it brings. -/
theorem readNBytes_position (r : RandomAccessState) (n : ℕ) :
    ∃ s pos', r.readNBytes file n = (s, (file.read r.reads r.pos n).data,
        ⟨pos', r.reads ++ [⟨r.pos, n, file.read r.reads r.pos n⟩]⟩) ∧
      pos' + stray ⟨r.pos, n, file.read r.reads r.pos n⟩
        = r.pos + (file.read r.reads r.pos n).data.length := by
  rw [RandomAccessState.readNBytes, if_neg (by omega), Int.toNat_natCast]
  by_cases hok : (file.read r.reads r.pos n).status.isOk = true ∨
      Errors.isOutOfRange (file.read r.reads r.pos n).status = true
  · simp only [stray, hok, if_true]
    split_ifs
    · exact ⟨_, _, rfl, rfl⟩
    · exact ⟨_, _, rfl, rfl⟩
  · simp only [stray, hok, if_false]
    exact ⟨_, _, rfl, rfl⟩

/-- **Refilling** keeps the account. -/
theorem refill_accounts (hfile : Faithful file contents) (s : Status) (h : Accounts contents b p) :
    ∃ s' b' left, refill (randomAccessInputStream file fuel) size s b = .ok (s', b', left) ∧
      Accounts contents b' p ∧ b.inner.reads <+: b'.inner.reads ∧
      (left = false → b'.pos < b'.limit) := by
  rw [refill]
  split_ifs with hpos
  · obtain ⟨s', pos', hread, hmoved⟩ : ∃ s pos', b.inner.readNBytes file size = _ ∧ _ :=
      readNBytes_position b.inner size
    have hposition := h.position
    have hprefix := hfile b.inner.reads b.inner.pos size
    generalize file.read b.inner.reads b.inner.pos size = answer at hread hmoved hprefix
    rw [fillBuffer, randomAccessInputStream]
    dsimp only
    rw [hread]
    refine ⟨_, _, _, rfl, ⟨Nat.zero_le _, le_rfl, ?_, ?_⟩, List.prefix_append _ _, ?_⟩
    · dsimp only
      rw [strays_snoc]
      omega
    · dsimp only
      intro hclean
      rw [strays_snoc] at hclean
      rw [List.drop_zero, Nat.sub_zero, List.take_length,
        ← show b.inner.pos = p by omega]
      exact eq_window_of_prefix hprefix
    · intro hleft
      simp only [decide_eq_false_iff_not] at hleft
      dsimp only
      omega
  · have := h.pos_le
    exact ⟨s, b, false, rfl, h, List.prefix_rfl, fun _ => by omega⟩

/-- **The loop of `ReadNBytes`**, each turn of which delivers a byte or leaves. -/
theorem readLoop_accounts (size : ℕ) (hfile : Faithful file contents) (n : ℕ) (s : Status) (result : Bytes)
    (h : Accounts contents b p) (turns : ℕ) (hturns : n - result.length < turns) :
    ∃ s' more b', readLoop (randomAccessInputStream file fuel) size n turns s result b
        = .ok (s', result ++ more, b') ∧
      Accounts contents b' (p + more.length) ∧ b.inner.reads <+: b'.inner.reads ∧
      (strays b'.inner.reads = 0 → more = window contents p more.length) := by
  induction turns generalizing s result b p with
  | zero => omega
  | succ turns ih =>
    rw [readLoop]
    split_ifs with hlt
    · obtain ⟨s₁, b₁, left, hrefill, h₁, hreads, hmore⟩ := refill_accounts hfile s h
      rw [hrefill, Access.ok_bind]
      cases left with
      | true => exact ⟨s₁, [], b₁, by simp, h₁, hreads, fun _ => rfl⟩
      | false =>
        have hpos := hmore rfl
        have hlimit := h₁.limit_le
        obtain ⟨k, hk, hkle, hmin⟩ : ∃ k, 0 < k ∧ k ≤ b₁.limit - b₁.pos ∧
            min (b₁.limit - b₁.pos) (n - result.length) = k :=
          ⟨min (b₁.limit - b₁.pos) (n - result.length), by omega, by omega, rfl⟩
        have hchunk := readBytes_of_le (show b₁.pos + k ≤ b₁.buf.length by omega)
        have hlen : ((b₁.buf.drop b₁.pos).take k).length = k := by
          rw [List.length_take, List.length_drop]
          omega
        dsimp only
        rw [if_neg (by decide), hmin, hchunk, Access.ok_bind]
        obtain ⟨s₂, more, b₂, hloop, h₂, hreads', hclean⟩ :=
          ih s₁ (result ++ (b₁.buf.drop b₁.pos).take k) (h₁.advance hkle) (by
            rw [List.length_append, hlen]
            omega)
        refine ⟨s₂, (b₁.buf.drop b₁.pos).take k ++ more, b₂, ?_, ?_, hreads.trans hreads', ?_⟩
        · rw [hloop, List.append_assoc]
        · rwa [List.length_append, hlen, ← Nat.add_assoc]
        · -- without stray bytes up to the end there were none at the chunk
          intro hzero
          have hzero₁ : strays b₁.inner.reads = 0 := by
            have hmono : strays b₁.inner.reads ≤ strays b₂.inner.reads := strays_mono hreads'
            omega
          have hwin := (h₁.tracks hzero₁).chunk hkle
          rw [hchunk, Except.ok.injEq] at hwin
          rw [List.length_append, hlen, window_add, ← hclean hzero, hwin]
    · exact ⟨s, [], b, by simp, h, List.prefix_rfl, fun _ => rfl⟩

/-- **One call**: it delivers some bytes and keeps the account, and they are the ones in front unless a
read was not clean. -/
theorem readNBytes_accounts (hfile : Faithful file contents) (n : ℤ) (hfuel : n < fuel)
    (h : Accounts contents b p) :
    ∃ s data b', readNBytes (randomAccessInputStream file fuel) size fuel n b = .ok (s, data, b') ∧
      Accounts contents b' (p + data.length) ∧ b.inner.reads <+: b'.inner.reads ∧
      (strays b'.inner.reads = 0 → data = window contents p data.length) := by
  rw [readNBytes]
  split_ifs with hn
  · exact ⟨_, [], b, rfl, h, List.prefix_rfl, fun _ => rfl⟩
  · obtain ⟨s, data, b', hloop, h', hreads, hclean⟩ :=
      readLoop_accounts size hfile n.toNat .ok [] h fuel (by
        rw [List.length_nil]
        omega)
    rw [hloop, Access.ok_bind, List.nil_append]
    dsimp only
    split_ifs
    · exact ⟨_, data, b', rfl, h', hreads, hclean⟩
    · exact ⟨_, data, b', rfl, h', hreads, hclean⟩

theorem step_accounts (size : ℕ) (hfile : Faithful file contents) (n : ℤ) (hfuel : n < fuel)
    (h : Accounts contents b p) :
    ∃ o b', step (randomAccessInputStream file fuel) size fuel b (.readNBytes n) = .ok (o, b') ∧
      Accounts contents b' (p + o.data.length) ∧ b.inner.reads <+: b'.inner.reads ∧
      (strays b'.inner.reads = 0 → o.data = window contents p o.data.length) ∧
      o.tell + strays b'.inner.reads = (p + o.data.length : ℕ) := by
  obtain ⟨s, data, b', hread, h', hreads, hclean⟩ := readNBytes_accounts hfile n hfuel h
  exact ⟨⟨s, data, tell (randomAccessInputStream file fuel) b'⟩, b', by rw [step, hread]; rfl, h',
    hreads, hclean, h'.tell_eq⟩

/-! ### Runs -/

/-- From a state without stray bytes on. -/
theorem reads_contiguous (hfile : Faithful file contents) (ns : List ℤ) (hfuel : ∀ n ∈ ns, n < fuel)
    (h : Accounts contents b p) :
    ∃ outs b', run (step (randomAccessInputStream file fuel) size fuel) b (ns.map Op.readNBytes)
        = .ok (outs, b') ∧
      b.inner.reads <+: b'.inner.reads ∧
      (strays b.inner.reads = 0 → (Contiguous contents p outs ↔ strays b'.inner.reads = 0)) := by
  induction ns generalizing b p with
  | nil => exact ⟨[], b, rfl, List.prefix_rfl, fun hzero => ⟨fun _ => hzero, fun _ => trivial⟩⟩
  | cons n ns ih =>
    obtain ⟨hn, hns⟩ := List.forall_mem_cons.mp hfuel
    obtain ⟨o, b₁, hstep, h₁, hreads, hclean, htell⟩ := step_accounts size hfile n hn h
    obtain ⟨os, b₂, hrest, hreads', hiff⟩ := ih hns h₁
    refine ⟨o :: os, b₂, ?_, hreads.trans hreads', fun hzero => ?_⟩
    · rw [List.map_cons, run_cons_ok hstep, hrest]
      rfl
    have hmono := strays_mono hreads'
    constructor
    · rintro ⟨-, htell', hos⟩
      exact (hiff (by omega)).mp hos
    · intro hzero₂
      have hzero₁ : strays b₁.inner.reads = 0 := by omega
      exact ⟨hclean hzero₁, by omega, (hiff hzero₁).mpr hzero₂⟩

/-- **Reads that fail in part**: wherever the stream below stands at the start, every call returns, and
the calls deliver one run of the file with `Tell()` in front of the next byte exactly if every read of
the file was clean. -/
theorem reads_contiguous_iff (contents : Bytes) (file : ReadableFile)
    (hfile : Faithful file contents) (size fuel : ℕ) (start : ℕ) (ns : List ℤ)
    (hfuel : ∀ n ∈ ns, n < fuel) :
    ∃ outs b, run (step (randomAccessInputStream file fuel) size fuel) (init ⟨start, []⟩)
        (ns.map Op.readNBytes) = .ok (outs, b) ∧
      (Contiguous contents start outs ↔ ∀ r ∈ b.inner.reads, Clean r) := by
  have hinit : Accounts contents (init ⟨start, []⟩) start :=
    ⟨le_rfl, Nat.zero_le _, rfl, fun _ => by simp [init, window]⟩
  obtain ⟨outs, b, hrun, -, hiff⟩ := reads_contiguous hfile ns hfuel hinit
  exact ⟨outs, b, hrun, by rw [hiff rfl, strays_eq_zero_iff]⟩

end

/-- A file of four bytes whose first read fails after one. -/
def failingOnce : ReadableFile :=
  ⟨fun reads offset n =>
    if reads = [] then
      ⟨.error .unknown "Input/output error", window [0x61, 0x62, 0x63, 0x64] offset (min n 1), true⟩
    else linuxRead (RegularFile.whole [0x61, 0x62, 0x63, 0x64]) offset n⟩

theorem failingOnce_faithful : Faithful failingOnce [0x61, 0x62, 0x63, 0x64] := by
  intro reads offset n
  rw [failingOnce]
  dsimp only
  split_ifs
  · exact List.take_prefix_take_left (Nat.min_le_left n 1)
  · rw [window, ← (linuxRandomAccessFile_serves (RegularFile.whole _)).data offset n]
    exact List.prefix_rfl

/-- Two bytes asked of it. -/
theorem reads_contiguous_iff_small :
    ∃ outs b, run (step (randomAccessInputStream failingOnce 3) 2 3) (init ⟨0, []⟩)
        (List.map Op.readNBytes [2]) = .ok (outs, b) ∧
      (Contiguous [0x61, 0x62, 0x63, 0x64] 0 outs ↔ ∀ r ∈ b.inner.reads, Clean r) :=
  reads_contiguous_iff _ failingOnce failingOnce_faithful 2 3 0 [2] (by decide)

/-- **One byte twice**: the first read of a call fails after one byte, the second succeeds; the call
returns OK, that byte twice, and leaves `Tell()` behind it. -/
theorem reads_delivered_twice :
    ∃ b, run (step (randomAccessInputStream failingOnce 3) 2 3) (init ⟨0, []⟩) [.readNBytes 2]
        = .ok ([⟨.ok, [0x61, 0x61], 1⟩], b) ∧
      ¬ Contiguous [0x61, 0x62, 0x63, 0x64] 0 [⟨.ok, [0x61, 0x61], 1⟩] :=
  ⟨_, rfl, by simp [Contiguous, window]⟩

end LearnNetlib.BufferedInputStream
