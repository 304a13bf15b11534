import LearnNetlib.Foundations.Loops
import LearnNetlib.Io.InputStream

/-!
# `io::ZlibInputStream`

Decompression between two buffers, over `inflate` as it is documented.

* `readFromStream`, `readBytesFromCache`, `turn`, `readNBytes` — the code of
  `base/io/zlib_inputstream.cc`;
* `Inflates` — what is relied on of `inflate` over a compressed stream;
* `Ready` — the invariant: cache, unread input and stream below together hold what is still to come;
* `turn_fed` — a turn that has input or can fetch some makes progress;
* **`zlibInputStream_serves_iff`** — the calls return the decompressed stream, and all of it that is
  asked for, exactly if no turn needs input where there is none.
-/

namespace LearnNetlib.ZlibInputStream

open LearnNetlib.Loops LearnNetlib.Runs LearnNetlib.Stream
open InputBuffer (window)

/-! ### The code -/

/-- What one call of `inflate` leaves: its code and message, how much of the input it consumed, what it
wrote, and its own state. -/
structure InflateResult (ζ : Type) where
  code : ℤ
  msg : Option String
  consumed : ℕ
  output : Bytes
  inflater : ζ

def zOk : ℤ := 0

def zStreamEnd : ℤ := 1

/-- The stream below; `avail_in` bytes at `next_in`; how far `next_unread_byte_` is into the output
buffer; the bytes between it and `next_out`; `avail_out`; and the state of `inflate`. -/
structure State (σ ζ : Type) where
  inner : σ
  avail : Bytes
  readBytes : ℕ
  cache : Bytes
  availOut : ℕ
  inflater : ζ

/-- The head of the loop of `ReadNBytes`: what is still to be read, and what `*result` holds. -/
structure Head (σ ζ : Type) where
  z : State σ ζ
  remaining : ℤ
  result : Bytes

/-- A `size_t` as an `int`. -/
def toInt (n : ℕ) : ℤ := Int.bmod n (2 ^ 32)

/-- A `size_t` as an `uInt`. -/
def toUInt (n : ℕ) : ℕ := n % 2 ^ 32

section

variable {σ ζ : Type} (stream : InputStreamInterface σ)
  (inflate : ζ → (input : Bytes) → (availOut : ℕ) → InflateResult ζ) (inCap outCap : ℕ)

/-- `InitZlibBuffer`. -/
def initZlibBuffer (inflater : ζ) (inner : σ) : State σ ζ :=
  ⟨inner, [], 0, [], toUInt outCap, inflater⟩

/-- `ReadFromStream`; unread bytes are moved to the head of the input buffer. -/
def readFromStream (z : State σ ζ) : Access (Status × State σ ζ) := do
  let bytesToRead := if z.avail = [] then toInt inCap else toInt inCap - z.avail.length
  let (s, data, inner) ← stream.readNBytes bytesToRead z.inner
  let z := { z with inner := inner, avail := z.avail ++ data }
  if s.isOk ∨ Errors.isOutOfRange s then
    -- We throw OutOfRange error iff no new data has been read from stream.
    if data = [] then return (Errors.outOfRange "EOF reached", z) else return (.ok, z)
  else return (s, z)

/-- `ReadBytesFromCache`; a negative count is larger than any buffer once it is a `size_t`. -/
def readBytesFromCache (bytesToRead : ℤ) (z : State σ ζ) : Bytes × State σ ζ :=
  let n := if bytesToRead < 0 then z.cache.length else min bytesToRead.toNat z.cache.length
  (z.cache.take n, { z with readBytes := z.readBytes + n, cache := z.cache.drop n })

/-- `NumUnreadBytes`. -/
def numUnreadBytes (z : State σ ζ) : ℤ := outCap - z.availOut - z.readBytes

/-- Step 1. Fill up input buffer, only after the previously read contents have been completely
consumed. -/
def fillInput (z : State σ ζ) : Access (Status × State σ ζ) :=
  if z.avail = [] then readFromStream stream inCap z else .ok (.ok, z)

/-- Step 2. Setup output stream. -/
def setupOutput (z : State σ ζ) : State σ ζ :=
  { z with readBytes := 0, cache := [], availOut := toUInt outCap }

/-- The `z_stream` after a call of `inflate`. -/
def State.advance (z : State σ ζ) (r : InflateResult ζ) : State σ ζ :=
  { z with
    avail := z.avail.drop r.consumed
    cache := z.cache ++ r.output
    availOut := z.availOut - r.output.length
    inflater := r.inflater }

/-- Step 3. `Inflate`. -/
def inflateMore (z : State σ ζ) : Status × State σ ζ :=
  let r := inflate z.inflater z.avail z.availOut
  if r.code ≠ zOk ∧ r.code ≠ zStreamEnd then
    let suffix := match r.msg with
      | none => ""
      | some msg => ": " ++ msg
    (Errors.dataLoss (s!"inflate() failed with error {r.code}" ++ suffix), z.advance r)
  else (.ok, z.advance r)

/-- Before the loop: as many bytes as possible from the cache. -/
def enter (n : ℤ) (z : State σ ζ) : Head σ ζ :=
  let (bytes, z) := readBytesFromCache n z
  ⟨z, n - bytes.length, bytes⟩

/-- One turn of the loop of `ReadNBytes`. -/
def turn (h : Head σ ζ) : Access (Head σ ζ ⊕ (Status × Bytes × State σ ζ)) :=
  if h.remaining > 0 then
    -- At this point we can be sure that cache has been emptied.
    if numUnreadBytes outCap h.z ≠ 0 then .error .assertFailed
    else do
      let (s, z) ← fillInput stream inCap h.z
      if s.isOk then
        let (s, z) := inflateMore inflate (setupOutput outCap z)
        if s.isOk then
          let (bytes, z) := readBytesFromCache h.remaining z
          return .inl ⟨z, h.remaining - bytes.length, h.result ++ bytes⟩
        else return .inr (s, h.result, z)
      else return .inr (s, h.result, z)
  else return .inr (.ok, h.result, h.z)

/-- `ReadNBytes`. -/
def readNBytes (fuel : ℕ) (n : ℤ) (z : State σ ζ) : Access (Status × Bytes × State σ ζ) :=
  loop .stillRunning (turn stream inflate inCap outCap) fuel (enter n z)

/-- `Reset`. -/
def reset (start : ζ) (z : State σ ζ) : Access (Status × State σ ζ) := do
  let (s, inner) ← stream.reset z.inner
  if s.isOk then return (.ok, initZlibBuffer outCap start inner)
  else return (s, { z with inner := inner })

/-- A `ZlibInputStream` is an input stream; `Tell` is not implemented. -/
def zlibInputStream (start : ζ) (fuel : ℕ) : InputStreamInterface (State σ ζ) where
  readNBytes := readNBytes stream inflate inCap outCap fuel
  skipNBytes := skipByReading (readNBytes stream inflate inCap outCap fuel) fuel
  tell _ := -1
  reset := reset stream outCap start

end

/-! ### `inflate` -/

/-- What `inflate` does over a compressed stream: `Decodes z rest out` says that in state `z`, with the
bytes `rest` still to be consumed, the bytes `out` are still to be produced. -/
structure Inflates {ζ : Type} (inflate : ζ → Bytes → ℕ → InflateResult ζ)
    (Decodes : ζ → Bytes → Bytes → Prop) : Prop where
  /-- It consumes a prefix of its input and produces the next bytes. -/
  call : ∀ {z rest out input} (availOut : ℕ), Decodes z rest out → input <+: rest →
    (inflate z input availOut).consumed ≤ input.length ∧
    (inflate z input availOut).output <+: out ∧
    (inflate z input availOut).output.length ≤ availOut ∧
    Decodes (inflate z input availOut).inflater
      (rest.drop (inflate z input availOut).consumed)
      (out.drop (inflate z input availOut).output.length)
  /-- With input and room it gets on. -/
  progress : ∀ {z rest out input availOut}, Decodes z rest out → input <+: rest → input ≠ [] →
    0 < availOut →
    ((inflate z input availOut).code = zOk ∨ (inflate z input availOut).code = zStreamEnd) ∧
    ((inflate z input availOut).consumed ≠ 0 ∨ (inflate z input availOut).output ≠ [])

/-! ### The invariant -/

section

variable {σ ζ : Type} {stream : InputStreamInterface σ}
  {inflate : ζ → Bytes → ℕ → InflateResult ζ} {inCap outCap : ℕ} {contents : Bytes}
  {At : ℕ → σ → Prop} {Decodes : ζ → Bytes → Bytes → Prop} {z : State σ ζ} {out : Bytes}

/-- The decompressed bytes still to be delivered are the cache and what `inflate` makes of the unread
input and the rest of the stream below. -/
structure Ready (contents : Bytes) (At : ℕ → σ → Prop) (Decodes : ζ → Bytes → Bytes → Prop)
    (outCap : ℕ) (z : State σ ζ) (out : Bytes) : Prop where
  decodes : ∃ p later, At p z.inner ∧ z.avail.length ≤ p ∧
    Decodes z.inflater (z.avail ++ contents.drop p) later ∧ out = z.cache ++ later
  room : z.availOut + z.readBytes + z.cache.length = toUInt outCap

theorem ready_init {start : ζ} {inner : σ} (hat : At 0 inner) (hdecodes : Decodes start contents out) :
    Ready contents At Decodes outCap (initZlibBuffer outCap start inner) out :=
  ⟨⟨0, out, hat, le_rfl, hdecodes, rfl⟩, rfl⟩

/-- **The cache** gives the next bytes, all that are asked for unless it is then empty. -/
theorem readBytesFromCache_spec (h : Ready contents At Decodes outCap z out) (k : ℕ) :
    ∃ rest, out = (readBytesFromCache k z).1 ++ rest ∧
      Ready contents At Decodes outCap (readBytesFromCache k z).2 rest ∧
      (readBytesFromCache k z).1.length ≤ k ∧
      ((readBytesFromCache k z).1.length < k → (readBytesFromCache k z).2.cache = []) := by
  obtain ⟨⟨p, later, hat, hle, hdecodes, hout⟩, hroom⟩ := h
  have hneg : ¬ (k : ℤ) < 0 := by omega
  simp only [readBytesFromCache, hneg, if_false, Int.toNat_natCast, List.length_take]
  refine ⟨z.cache.drop (min k z.cache.length) ++ later, ?_, ⟨⟨p, later, hat, hle, hdecodes, rfl⟩, ?_⟩,
    by omega, fun hlt => ?_⟩
  · rw [← List.append_assoc, List.take_append_drop, hout]
  · dsimp only
    rw [List.length_drop]
    omega
  · rw [List.drop_eq_nil_iff]
    omega

/-- At a head the bytes read so far and those still to be delivered make up what there was. -/
structure HeadInv (contents : Bytes) (At : ℕ → σ → Prop) (Decodes : ζ → Bytes → Bytes → Prop)
    (outCap : ℕ) (out : Bytes) (n : ℕ) (h : Head σ ζ) : Prop where
  ready : ∃ rest, out = h.result ++ rest ∧ Ready contents At Decodes outCap h.z rest
  remaining : h.remaining + h.result.length = n
  nonneg : 0 ≤ h.remaining
  empty : 0 < h.remaining → h.z.cache = []

theorem headInv_enter (h : Ready contents At Decodes outCap z out) (n : ℕ) :
    HeadInv contents At Decodes outCap out n (enter n z) := by
  obtain ⟨rest, hout, hready, hle, hempty⟩ := readBytesFromCache_spec h n
  refine ⟨⟨rest, hout, hready⟩, ?_, ?_, fun hpos => ?_⟩
  · dsimp only [enter]
    omega
  · dsimp only [enter]
    omega
  · dsimp only [enter] at hpos ⊢
    exact hempty (by omega)

/-! ### One turn -/

/-- There is more below, and the capacity as an `int` lets it be read. -/
def CanFetch (stream : InputStreamInterface σ) (inCap : ℕ) (contents : Bytes) (z : State σ ζ) : Prop :=
  0 < toInt inCap ∧ stream.tell z.inner < contents.length

/-- **Fetching**, if there is something to fetch. -/
theorem readFromStream_spec (hstream : Delivers stream contents At) {p : ℕ} (hat : At p z.inner)
    (havail : z.avail = []) (hfetch : CanFetch stream inCap contents z) :
    ∃ data inner, readFromStream stream inCap z
        = .ok (.ok, { z with inner := inner, avail := data }) ∧
      data ≠ [] ∧ data ++ contents.drop (p + data.length) = contents.drop p ∧
      At (p + data.length) inner := by
  obtain ⟨hcap, hmore⟩ := hfetch
  rw [hstream.tell hat] at hmore
  obtain ⟨n, hn⟩ := Int.eq_ofNat_of_zero_le hcap.le
  obtain ⟨inner, hread, hat'⟩ := hstream.read n hat
  have hne : window contents p n ≠ [] := by
    rw [← List.length_pos_iff, window_length]
    omega
  refine ⟨window contents p n, inner, ?_, hne, ?_, hat'⟩
  · rw [readFromStream, if_pos havail, hn, hread, havail, Access.ok_bind]
    dsimp only
    rw [List.nil_append, if_neg hne, if_pos]
    · rfl
    · rw [streamStatus]
      split_ifs
      · exact .inl rfl
      · exact .inr rfl
  · rw [window_length, ← List.drop_drop]
    have htake : (contents.drop p).take (min n (contents.length - p)) = window contents p n := by
      rw [window, List.take_eq_take_iff, List.length_drop]
      omega
    rw [← htake, List.take_append_drop]

/-- Fetching otherwise fails. -/
theorem readFromStream_fails (hstream : Delivers stream contents At) {p : ℕ} (hat : At p z.inner)
    (havail : z.avail = []) (hfetch : ¬ CanFetch stream inCap contents z) :
    ∃ s inner, readFromStream stream inCap z = .ok (s, { z with inner := inner }) ∧
      s.isOk = false ∧ At p inner := by
  rw [readFromStream, if_pos havail]
  rcases lt_or_ge (toInt inCap) 0 with hneg | hnonneg
  · obtain ⟨msg, hread⟩ := hstream.negative hat hneg
    have hfail : ¬ ((Errors.invalidArgument msg).isOk = true ∨
        Errors.isOutOfRange (Errors.invalidArgument msg) = true) := by
      simp [Errors.invalidArgument, Errors.isOutOfRange]
    rw [hread, Access.ok_bind]
    dsimp only
    rw [List.append_nil, if_neg hfail]
    exact ⟨_, _, rfl, rfl, hat⟩
  · obtain ⟨n, hn⟩ := Int.eq_ofNat_of_zero_le hnonneg
    obtain ⟨inner, hread, hat'⟩ := hstream.read n hat
    have hnil : window contents p n = [] := by
      rw [← List.length_eq_zero_iff, window_length]
      rw [CanFetch, hstream.tell hat] at hfetch
      omega
    rw [hnil, List.length_nil, Nat.add_zero] at hat'
    rw [hn, hread, hnil, Access.ok_bind]
    dsimp only
    rw [if_pos rfl, List.append_nil]
    split_ifs with hs
    · exact ⟨_, _, rfl, rfl, hat'⟩
    · rw [not_or] at hs
      exact ⟨_, _, rfl, by simpa using hs.1, hat'⟩

theorem readBytesFromCache_length (k : ℕ) (z : State σ ζ) :
    (readBytesFromCache k z).1.length = min k z.cache.length := by
  have hneg : ¬ (k : ℤ) < 0 := by omega
  simp only [readBytesFromCache, hneg, if_false, Int.toNat_natCast, List.length_take]
  omega

/-- **Inflating** with input and room: less input or something in the cache. -/
theorem inflateMore_spec (hinflate : Inflates inflate Decodes) {p : ℕ} {later : Bytes}
    (hat : At p z.inner) (hle : z.avail.length ≤ p)
    (hdecodes : Decodes z.inflater (z.avail ++ contents.drop p) later) (havail : z.avail ≠ [])
    (hroom : 0 < toUInt outCap) :
    ∃ z', inflateMore inflate (setupOutput outCap z) = (.ok, z') ∧ z'.inner = z.inner ∧
      Ready contents At Decodes outCap z' later ∧ z'.avail.length ≤ z.avail.length ∧
      (z'.avail.length < z.avail.length ∨ z'.cache ≠ []) := by
  have hprefix : z.avail <+: z.avail ++ contents.drop p := List.prefix_append _ _
  obtain ⟨hconsumed, houtput, hlen', hdecodes'⟩ := hinflate.call (toUInt outCap) hdecodes hprefix
  obtain ⟨hcode, hprogress⟩ := hinflate.progress hdecodes hprefix havail hroom
  have hlen := List.length_pos_iff.mpr havail
  rw [inflateMore, setupOutput]
  dsimp only [State.advance]
  generalize inflate z.inflater z.avail (toUInt outCap) = r at *
  rw [List.drop_append_of_le_length hconsumed] at hdecodes'
  obtain ⟨later', rfl⟩ := houtput
  rw [List.drop_left] at hdecodes'
  rw [if_neg (by tauto)]
  refine ⟨_, rfl, rfl, ⟨⟨p, later', hat, ?_, hdecodes', rfl⟩, ?_⟩, ?_, ?_⟩
  · dsimp only
    rw [List.length_drop]
    omega
  · dsimp only
    rw [List.nil_append]
    omega
  · dsimp only
    rw [List.length_drop]
    omega
  · dsimp only
    rw [List.length_drop, List.nil_append]
    exact hprogress.imp_left fun h => by omega

variable {h : Head σ ζ} {n : ℕ}

/-- The loop's condition at a head: either the call asks for more than there is, or unread input is
there or can be fetched; and the output buffer's size fits an `uInt`. -/
def Fed (stream : InputStreamInterface σ) (inCap outCap : ℕ) (contents out : Bytes) (n : ℕ)
    (h : Head σ ζ) : Prop :=
  0 < h.remaining → outCap < 2 ^ 32 ∧
    (h.z.avail ≠ [] ∨ CanFetch stream inCap contents h.z ∨ out.length < n)

/-- Nothing more to be read. -/
theorem turn_done (stream : InputStreamInterface σ) (inflate : ζ → Bytes → ℕ → InflateResult ζ)
    (inCap : ℕ) (hinv : HeadInv contents At Decodes outCap out n h) (hrem : ¬ 0 < h.remaining) :
    turn stream inflate inCap outCap h = .ok (.inr (.ok, h.result, h.z)) ∧
      h.result.length = n := by
  have h1 := hinv.remaining
  have h2 := hinv.nonneg
  rw [turn, if_neg hrem]
  exact ⟨rfl, by omega⟩

theorem toUInt_of_lt (hcap : outCap < 2 ^ 32) : toUInt outCap = outCap := Nat.mod_eq_of_lt hcap

/-- The check at the head of the loop is about the size of the output buffer. -/
theorem numUnreadBytes_eq_zero_iff (hinv : HeadInv contents At Decodes outCap out n h)
    (hrem : 0 < h.remaining) : numUnreadBytes outCap h.z = 0 ↔ outCap < 2 ^ 32 := by
  obtain ⟨rest, -, hready⟩ := hinv.ready
  have hroom := hready.room
  rw [hinv.empty hrem, List.length_nil, toUInt] at hroom
  have hmod := Nat.mod_lt outCap (show 0 < 2 ^ 32 by decide)
  rw [numUnreadBytes]
  constructor
  · intro hzero
    omega
  · intro hcap
    rw [Nat.mod_eq_of_lt hcap] at hroom
    omega

/-- Too large an output buffer fails the check. -/
theorem turn_large (hinv : HeadInv contents At Decodes outCap out n h) (hrem : 0 < h.remaining)
    (hcap : ¬ outCap < 2 ^ 32) : turn stream inflate inCap outCap h = .error .assertFailed := by
  rw [turn, if_pos hrem, if_pos]
  rwa [Ne, numUnreadBytes_eq_zero_iff hinv hrem]

/-- **Input that is needed and cannot be fetched** ends the call. -/
theorem turn_starved (inflate : ζ → Bytes → ℕ → InflateResult ζ) (hstream : Delivers stream contents At)
    (hinv : HeadInv contents At Decodes outCap out n h) (hrem : 0 < h.remaining)
    (hcap : outCap < 2 ^ 32) (havail : h.z.avail = [])
    (hfetch : ¬ CanFetch stream inCap contents h.z) :
    ∃ s z' rest, turn stream inflate inCap outCap h = .ok (.inr (s, h.result, z')) ∧
      s.isOk = false ∧ out = h.result ++ rest ∧ Ready contents At Decodes outCap z' rest := by
  obtain ⟨rest, hsplit, ⟨p, later, hat, hle, hdecodes, hout⟩, hroom⟩ := hinv.ready
  obtain ⟨s, inner, hread, hs, hat'⟩ := readFromStream_fails hstream hat havail hfetch
  have hunread := (numUnreadBytes_eq_zero_iff hinv hrem).mpr hcap
  refine ⟨s, { h.z with inner := inner }, rest, ?_, hs, hsplit, ⟨p, later, hat', hle, hdecodes, hout⟩,
    hroom⟩
  rw [turn, if_pos hrem, if_neg (not_not.mpr hunread), fillInput, if_pos havail, hread,
    Access.ok_bind]
  dsimp only
  rw [hs]
  rfl

/-- What is unread, and what is still asked for. -/
def pending (stream : InputStreamInterface σ) (contents : Bytes) (h : Head σ ζ) : ℕ :=
  (contents.length - (stream.tell h.z.inner).toNat) + h.z.avail.length + h.remaining.toNat

/-- Before inflating there is input, as much unread as before. -/
theorem fillInput_spec (hstream : Delivers stream contents At)
    (hready : Ready contents At Decodes outCap z out) (hempty : z.cache = [])
    (hfed : z.avail ≠ [] ∨ CanFetch stream inCap contents z) :
    ∃ z₁ p, fillInput stream inCap z = .ok (.ok, z₁) ∧ z₁.avail ≠ [] ∧ At p z₁.inner ∧
      z₁.avail.length ≤ p ∧ Decodes z₁.inflater (z₁.avail ++ contents.drop p) out ∧
      (contents.length - p) + z₁.avail.length
        = (contents.length - (stream.tell z.inner).toNat) + z.avail.length := by
  obtain ⟨⟨p, later, hat, hle, hdecodes, hout⟩, -⟩ := hready
  rw [hempty, List.nil_append] at hout
  rw [hstream.tell hat, Int.toNat_natCast, hout]
  by_cases havail : z.avail = []
  · obtain ⟨data, inner, hread, hne, hdata, hat'⟩ :=
      readFromStream_spec hstream hat havail (hfed.resolve_left (not_not.mpr havail))
    rw [fillInput, if_pos havail, hread]
    refine ⟨_, p + data.length, rfl, hne, hat', Nat.le_add_left _ _, ?_, ?_⟩
    · rwa [havail, List.nil_append, ← hdata] at hdecodes
    · have hle := hstream.le hat'
      rw [havail, List.length_nil]
      dsimp only
      omega
  · rw [fillInput, if_neg havail]
    exact ⟨z, p, rfl, havail, hat, hle, hdecodes, rfl⟩

/-- **A turn with input, or that can fetch some, makes progress.** -/
theorem turn_fed (hinflate : Inflates inflate Decodes) (hstream : Delivers stream contents At)
    (hout : 1 ≤ outCap) (hinv : HeadInv contents At Decodes outCap out n h) (hrem : 0 < h.remaining)
    (hcap : outCap < 2 ^ 32) (hfed : h.z.avail ≠ [] ∨ CanFetch stream inCap contents h.z) :
    ∃ h', turn stream inflate inCap outCap h = .ok (.inl h') ∧
      HeadInv contents At Decodes outCap out n h' ∧
      pending stream contents h' < pending stream contents h := by
  obtain ⟨rest, hsplit, hready⟩ := hinv.ready
  have hunread := (numUnreadBytes_eq_zero_iff hinv hrem).mpr hcap
  obtain ⟨z₁, p, hinput, havail, hat, hle₁, hdecodes, hleft⟩ :=
    fillInput_spec hstream hready (hinv.empty hrem) hfed
  obtain ⟨z₂, hmore, hinner, hready₂, hle, hprogress⟩ :=
    inflateMore_spec hinflate hat hle₁ hdecodes havail (by rw [toUInt_of_lt hcap]; omega)
  obtain ⟨k, hk⟩ := Int.eq_ofNat_of_zero_le hinv.nonneg
  obtain ⟨rest', hrest, hready₃, hlek, hempty⟩ := readBytesFromCache_spec hready₂ k
  have hbytes := readBytesFromCache_length k z₂
  have hremaining := hinv.remaining
  refine ⟨⟨(readBytesFromCache k z₂).2, k - (readBytesFromCache k z₂).1.length,
    h.result ++ (readBytesFromCache k z₂).1⟩, ?_, ⟨⟨rest', ?_, hready₃⟩, ?_, ?_, ?_⟩, ?_⟩
  · rw [turn, if_pos hrem, if_neg (not_not.mpr hunread), hinput, Access.ok_bind, hk]
    dsimp only
    rw [if_pos Status.isOk_ok, hmore]
    rfl
  · rw [hsplit, hrest, List.append_assoc]
  · dsimp only
    rw [List.length_append]
    omega
  · dsimp only
    omega
  · intro hpos
    dsimp only at hpos
    exact hempty (by omega)
  · -- the input is shorter, or bytes came out of the cache
    have hat₃ : At p (readBytesFromCache k z₂).2.inner := by
      rw [← hinner] at hat
      exact hat
    have htell := hstream.tell hat₃
    have havail₃ : (readBytesFromCache k z₂).2.avail = z₂.avail := rfl
    rw [pending, pending, htell, havail₃, ← hleft, hk, Int.toNat_natCast, Int.toNat_natCast,
      Int.toNat_sub]
    rcases hprogress with hless | hne
    · exact Nat.add_lt_add_of_lt_of_le (Nat.add_lt_add_left hless _) (Nat.sub_le _ _)
    · have hcache := List.length_pos_iff.mpr hne
      have hasked : 0 < k := by omega
      exact Nat.add_lt_add_of_le_of_lt (Nat.add_le_add_left hle _) (by rw [hbytes]; omega)

/-! ### One call -/

/-- The heads of a call. -/
def callHeads (stream : InputStreamInterface σ) (inflate : ζ → Bytes → ℕ → InflateResult ζ)
    (inCap outCap fuel n : ℕ) (z : State σ ζ) : List (Head σ ζ) :=
  heads (turn stream inflate inCap outCap) fuel (enter n z)

/-- Every head is reached with the invariant. -/
theorem headInv_of_mem (hinflate : Inflates inflate Decodes) (hstream : Delivers stream contents At)
    (hout : 1 ≤ outCap) (hready : Ready contents At Decodes outCap z out) (fuel : ℕ) :
    ∀ h ∈ callHeads stream inflate inCap outCap fuel n z,
      HeadInv contents At Decodes outCap out n h := by
  refine heads_invariant (fun h h' hinv hgo => ?_) (headInv_enter hready n)
  by_cases hrem : 0 < h.remaining
  · by_cases hcap : outCap < 2 ^ 32
    · by_cases hfed : h.z.avail ≠ [] ∨ CanFetch stream inCap contents h.z
      · obtain ⟨h'', hturn, hinv', -⟩ := turn_fed hinflate hstream hout hinv hrem hcap hfed
        rw [hturn] at hgo
        cases hgo
        exact hinv'
      · rw [not_or, not_not] at hfed
        obtain ⟨s, z', rest, hturn, -⟩ := turn_starved inflate hstream hinv hrem hcap hfed.1 hfed.2
        rw [hturn] at hgo
        cases hgo
    · rw [turn_large hinv hrem hcap] at hgo
      cases hgo
  · rw [(turn_done stream inflate inCap hinv hrem).1] at hgo
    cases hgo

/-- What a call owes of `out`: the next bytes, and all that are asked for if there are so many. -/
def Owed (out : Bytes) (n : ℕ) (s : Status) (data : Bytes) : Prop :=
  data <+: out ∧ (s = .ok → data.length = n) ∧ (n ≤ out.length → s = .ok)

/-- **A call whose every turn is fed** returns what it owes. -/
theorem readNBytes_owed (hinflate : Inflates inflate Decodes) (hstream : Delivers stream contents At)
    (hout : 1 ≤ outCap) (hready : Ready contents At Decodes outCap z out) {fuel : ℕ}
    (hfuel : contents.length + n < fuel)
    (hfed : ∀ h ∈ callHeads stream inflate inCap outCap fuel n z,
      Fed stream inCap outCap contents out n h) :
    ∃ s data z', readNBytes stream inflate inCap outCap fuel n z = .ok (s, data, z') ∧
      Owed out n s data ∧ Ready contents At Decodes outCap z' (out.drop data.length) := by
  refine loop_total_of_heads (HeadInv contents At Decodes outCap out n)
    (Fed stream inCap outCap contents out n)
    (fun r => ∃ s data z', r = Except.ok (s, data, z') ∧ Owed out n s data ∧
      Ready contents At Decodes outCap z' (out.drop data.length))
    (pending stream contents) (fun h hinv hfed => ?_) (headInv_enter hready n) ?_ hfed
  · by_cases hrem : 0 < h.remaining
    · obtain ⟨hcap, hinput⟩ := hfed hrem
      by_cases hget : h.z.avail ≠ [] ∨ CanFetch stream inCap contents h.z
      · exact .inl (turn_fed hinflate hstream hout hinv hrem hcap hget)
      · -- the call asks for more than there is
        rw [not_or, not_not] at hget
        have hmany : out.length < n := by tauto
        obtain ⟨s, z', rest, hturn, hs, hsplit, hready'⟩ :=
          turn_starved inflate hstream hinv hrem hcap hget.1 hget.2
        have hs' : s ≠ .ok := by
          rwa [Ne, ← Status.isOk_iff, Bool.not_eq_true]
        refine .inr (.inl ⟨_, hturn, s, h.result, z', rfl, ⟨⟨rest, hsplit.symm⟩, ?_, ?_⟩, ?_⟩)
        · exact fun hok => absurd hok hs'
        · omega
        · rwa [hsplit, List.drop_left]
    · obtain ⟨hturn, hlen⟩ := turn_done stream inflate inCap hinv hrem
      obtain ⟨rest, hsplit, hready'⟩ := hinv.ready
      refine .inr (.inl ⟨_, hturn, .ok, h.result, h.z, rfl,
        ⟨⟨rest, hsplit.symm⟩, fun _ => hlen, fun _ => rfl⟩, ?_⟩)
      rwa [hsplit, List.drop_left]
  · have hremaining := (headInv_enter hready n).remaining
    obtain ⟨⟨p, later, hat, hle, -⟩, -⟩ := hready
    have htell : stream.tell (enter n z).z.inner = p := hstream.tell hat
    have havail : (enter n z).z.avail = z.avail := rfl
    have hp := hstream.le hat
    rw [pending, havail, htell]
    omega

/-- **A call with a turn that is not** does not. -/
theorem readNBytes_not_owed (hinflate : Inflates inflate Decodes)
    (hstream : Delivers stream contents At) (hout : 1 ≤ outCap)
    (hready : Ready contents At Decodes outCap z out) {fuel : ℕ} {h : Head σ ζ}
    (hmem : h ∈ callHeads stream inflate inCap outCap fuel n z)
    (hfed : ¬ Fed stream inCap outCap contents out n h) {s : Status} {data : Bytes} {z' : State σ ζ}
    (hcall : readNBytes stream inflate inCap outCap fuel n z = .ok (s, data, z')) :
    ¬ Owed out n s data := by
  have hinv := headInv_of_mem hinflate hstream hout hready fuel h hmem
  obtain ⟨m, hloop⟩ := exists_loop_eq .stillRunning hmem
  rw [readNBytes, hloop, loop] at hcall
  rw [Fed, Classical.not_imp, not_and] at hfed
  obtain ⟨hrem, hfed⟩ := hfed
  by_cases hcap : outCap < 2 ^ 32
  · have hstarved := hfed hcap
    rw [not_or, not_or, not_not, Nat.not_lt] at hstarved
    obtain ⟨havail, hfetch, hn⟩ := hstarved
    obtain ⟨s', z'', -, hturn, hs', -⟩ :=
      turn_starved inflate hstream hinv hrem hcap havail hfetch
    rw [hturn] at hcall
    cases hcall
    rintro ⟨-, -, hok⟩
    rw [hok hn] at hs'
    cases hs'
  · rw [turn_large hinv hrem hcap] at hcall
    cases hcall

/-! ### Runs -/

/-- A call and what it shows. -/
def step (stream : InputStreamInterface σ) (inflate : ζ → Bytes → ℕ → InflateResult ζ)
    (inCap outCap fuel : ℕ) (z : State σ ζ) (n : ℕ) : Access ((Status × Bytes) × State σ ζ) :=
  (readNBytes stream inflate inCap outCap fuel n z).map fun r => ((r.1, r.2.1), r.2.2)

/-- Every call gives what it owes of the bytes still to be delivered. -/
def Served : Bytes → List ℕ → List (Status × Bytes) → Prop
  | _, [], [] => True
  | out, n :: ns, r :: rs => Owed out n r.1 r.2 ∧ Served (out.drop r.2.length) ns rs
  | _, _, _ => False

/-- Every turn of every call is fed. -/
def AllFed (stream : InputStreamInterface σ) (inflate : ζ → Bytes → ℕ → InflateResult ζ)
    (inCap outCap fuel : ℕ) (contents : Bytes) : Bytes → State σ ζ → List ℕ → Prop
  | _, _, [] => True
  | out, z, n :: ns =>
    (∀ h ∈ callHeads stream inflate inCap outCap fuel n z, Fed stream inCap outCap contents out n h) ∧
      match readNBytes stream inflate inCap outCap fuel n z with
      | .error _ => True
      | .ok (_, data, z') => AllFed stream inflate inCap outCap fuel contents (out.drop data.length) z' ns

/-- From any state on. -/
theorem run_served_iff (hinflate : Inflates inflate Decodes) (hstream : Delivers stream contents At)
    (hout : 1 ≤ outCap) {fuel : ℕ} (ns : List ℕ) (hfuel : ∀ n ∈ ns, contents.length + n < fuel)
    (hready : Ready contents At Decodes outCap z out) :
    (∃ outs z', run (step stream inflate inCap outCap fuel) z ns = .ok (outs, z') ∧
        Served out ns outs) ↔
      AllFed stream inflate inCap outCap fuel contents out z ns := by
  induction ns generalizing z out with
  | nil => exact ⟨fun _ => trivial, fun _ => ⟨[], z, rfl, trivial⟩⟩
  | cons n ns ih =>
    obtain ⟨hn, hns⟩ := List.forall_mem_cons.mp hfuel
    rw [AllFed]
    by_cases hfed : ∀ h ∈ callHeads stream inflate inCap outCap fuel n z,
        Fed stream inCap outCap contents out n h
    · obtain ⟨s, data, z', hcall, howed, hready'⟩ :=
        readNBytes_owed hinflate hstream hout hready hn hfed
      have hstep : step stream inflate inCap outCap fuel z n = .ok ((s, data), z') := by
        rw [step, hcall]
        rfl
      rw [hcall]
      dsimp only
      rw [← ih hns hready', run_cons_ok hstep]
      refine ⟨?_, ?_⟩
      · rintro ⟨outs, z'', hrun, hserved⟩
        cases hrest : run (step stream inflate inCap outCap fuel) z' ns with
        | error e => simp [hrest, Except.map] at hrun
        | ok r =>
          rw [hrest] at hrun
          cases hrun
          exact ⟨hfed, r.1, r.2, rfl, hserved.2⟩
      · rintro ⟨-, outs, z'', hrest, hserved⟩
        exact ⟨(s, data) :: outs, z'', by rw [hrest]; rfl, howed, hserved⟩
    · refine ⟨?_, fun h => absurd h.1 hfed⟩
      rintro ⟨outs, z'', hrun, hserved⟩
      obtain ⟨o, z', os, hstep, -, rfl⟩ := run_cons_eq_ok hrun
      rw [not_forall] at hfed
      obtain ⟨h, hfed⟩ := hfed
      rw [Classical.not_imp] at hfed
      cases hcall : readNBytes stream inflate inCap outCap fuel n z with
      | error e => simp [step, hcall, Except.map] at hstep
      | ok r =>
        rw [step, hcall] at hstep
        cases hstep
        exact absurd hserved.1
          (readNBytes_not_owed hinflate hstream hout hready hfed.1 hfed.2 hcall)

end

/-- **A `ZlibInputStream` over a compressed stream**: whatever the sizes of its buffers and of the
reads, every call returns the next bytes of the decompressed stream, all that are asked for if there
are so many, exactly if at every turn of every call's loop that needs new input there is some to be
read, or the call asks for more than there is. -/
theorem zlibInputStream_serves_iff {σ ζ : Type} (stream : InputStreamInterface σ) (contents : Bytes)
    (At : ℕ → σ → Prop) (hstream : Delivers stream contents At)
    (inflate : ζ → Bytes → ℕ → InflateResult ζ) (Decodes : ζ → Bytes → Bytes → Prop)
    (hinflate : Inflates inflate Decodes) (start : ζ) (plain : Bytes)
    (hdecodes : Decodes start contents plain) (inner : σ) (hat : At 0 inner) (inCap outCap : ℕ)
    (hout : 1 ≤ outCap) (ns : List ℕ) (fuel : ℕ) (hfuel : ∀ n ∈ ns, contents.length + n < fuel) :
    (∃ outs z, run (step stream inflate inCap outCap fuel) (initZlibBuffer outCap start inner) ns
        = .ok (outs, z) ∧ Served plain ns outs) ↔
      AllFed stream inflate inCap outCap fuel contents plain (initZlibBuffer outCap start inner) ns :=
  run_served_iff hinflate hstream hout ns hfuel (ready_init hat hdecodes)

/-! ### An `inflate` that holds its output back -/

/-- It consumes all it is given and, once it has the whole stream, writes as much as fits; its state is
what it has not consumed and what it has not written. -/
def wholeInflate (z : Bytes × Bytes) (input : Bytes) (availOut : ℕ) : InflateResult (Bytes × Bytes) :=
  let consumed := min input.length z.1.length
  let output := if consumed = z.1.length then z.2.take availOut else []
  let z' := (z.1.drop consumed, z.2.drop output.length)
  let code := if z' = ([], []) then zStreamEnd
    else if consumed = 0 ∧ output = [] then -5
    else zOk
  ⟨code, none, consumed, output, z'⟩

theorem wholeInflate_inflates : Inflates wholeInflate fun z rest out => z = (rest, out) where
  call := by
    rintro z rest out input availOut rfl hprefix
    refine ⟨Nat.min_le_left _ _, ?_, ?_, rfl⟩
    · rw [wholeInflate]
      dsimp only
      split_ifs
      · exact List.take_prefix _ _
      · exact List.nil_prefix
    · rw [wholeInflate]
      dsimp only
      split_ifs
      · exact List.length_take_le _ _
      · exact Nat.zero_le _
  progress := by
    rintro z rest out input availOut rfl hprefix hne -
    have hconsumed : min input.length rest.length ≠ 0 := by
      have hle := hprefix.length_le
      have hpos := List.length_pos_iff.mpr hne
      omega
    refine ⟨?_, .inl hconsumed⟩
    rw [wholeInflate]
    dsimp only
    rw [if_neg (fun h : _ ∧ _ => hconsumed h.1)]
    split_ifs
    · exact .inr rfl
    · exact .inl rfl
    · exact .inr rfl
    · exact .inl rfl

/-- Ten times the byte 0x90, compressed without header. -/
def rawStream : Bytes := [0x9b, 0x30, 0x01, 0x06, 0x00]

/-- With a buffer for all of the output. -/
theorem zlibInputStream_serves_iff_small :
    (∃ outs z, run (step (randomAccessInputStream (steadyFile (linuxRandomAccessFile
        (RegularFile.whole rawStream))) 6) wholeInflate 5 10 16)
        (initZlibBuffer 10 (rawStream, List.replicate 10 0x90) ⟨0, []⟩) [10] = .ok (outs, z) ∧
        Served (List.replicate 10 0x90) [10] outs) ↔
      AllFed (randomAccessInputStream (steadyFile (linuxRandomAccessFile
        (RegularFile.whole rawStream))) 6) wholeInflate 5 10 16 rawStream (List.replicate 10 0x90)
        (initZlibBuffer 10 (rawStream, List.replicate 10 0x90) ⟨0, []⟩) [10] :=
  zlibInputStream_serves_iff _ rawStream (RandomAt rawStream)
    (randomAccessInputStream_delivers (steadyFile_answers (linuxRandomAccessFile_serves _))
      (by decide))
    wholeInflate _ wholeInflate_inflates (rawStream, List.replicate 10 0x90) (List.replicate 10 0x90)
    rfl ⟨0, []⟩ ⟨rfl, Nat.zero_le _⟩ 5 10 (by decide) [10] 16 (by decide)

/-- **Output held back at the end of the file**: all input is consumed, two bytes are still to come, and
the call that asks for them fails. -/
theorem zlibInputStream_held_output :
    ∃ z, run (step (randomAccessInputStream (steadyFile (linuxRandomAccessFile
        (RegularFile.whole rawStream))) 6) wholeInflate 5 8 16)
        (initZlibBuffer 8 (rawStream, List.replicate 10 0x90) ⟨0, []⟩) [10]
        = .ok ([(Errors.outOfRange "EOF reached", List.replicate 8 0x90)], z) ∧
      ¬ Served (List.replicate 10 0x90) [10]
        [(Errors.outOfRange "EOF reached", List.replicate 8 0x90)] :=
  ⟨_, rfl, by simp [Served, Owed, Errors.outOfRange]⟩

end LearnNetlib.ZlibInputStream
