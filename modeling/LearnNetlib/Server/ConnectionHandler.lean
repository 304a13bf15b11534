import LearnNetlib.Foundations.Runs
import LearnNetlib.Server.HandlerContext

/-!
# `ConnectionHandler` of `rest_async_server`

The bytes of a body that are still to come are counted down, by reads of any size.

* `call`, `readChunk`, `handlePostRead` — the code of `rest_async_server.cc`; `step` delivers a read to the
  handler that waits for one;
* `Sound`, `AlwaysSound` — the count is of the bytes that are left, and reading stops when none is;
* `run_start` — the handler after reads that do not go past the length;
* **`handler_sound_iff`** — it is sound all the time, exactly if no read goes past the length.
-/

namespace LearnNetlib.RestAsync

open Rest Runs

/-! ### The code -/

/-- `kMaxRequestBodyLength`. -/
def kMaxRequestBodyLength : ℤ := 1024 * 2

/-- What a read callback is called with. -/
structure PostRead where
  range : Bytes
  ec : Option AsioError
  size : UInt64
  inBounds : size.toNat ≤ range.length

/-- What `body_.append` takes. -/
def PostRead.data (r : PostRead) : Bytes := r.range.take r.size.toNat

/-- `ConnectionHandler`, and the read it waits for: the `need_to_read` of its callback. -/
structure ConnectionHandler where
  body : Bytes
  reading : Option UInt64
  deriving Repr, DecidableEq

/-- What `HandlePostRead` logs. -/
inductive LogLine
  | remain (readSize remainSize : UInt64)
  | body (body : Bytes)
  | done
  deriving Repr, DecidableEq

/-- `ReadChunk`. -/
def ConnectionHandler.readChunk (h : ConnectionHandler) (needToRead : UInt64) : ConnectionHandler :=
  { h with reading := some needToRead }

/-- `HandlePostRead`. -/
def ConnectionHandler.handlePostRead (h : ConnectionHandler) (r : PostRead) (needToRead : UInt64) :
    List LogLine × ConnectionHandler :=
  match r.ec with
  | some _ => ([], h)
  | none =>
    let h := { h with body := h.body ++ r.data }
    let left := needToRead - r.size
    if left > 0 then ([.remain r.size left], h.readChunk left)
    else ([.remain r.size left, .body h.body, .done], h) -- Read Body Done

/-- What `boost::lexical_cast` throws. -/
inductive BadLexicalCast
  | badLexicalCast
  deriving Repr, DecidableEq

/-- The `int` that `ReadChunk` is given, from the first header of that name. -/
def findContentLength (lexicalCast : Bytes → Except BadLexicalCast Int32) (headers : List Header) :
    Except BadLexicalCast Int32 :=
  match headers.find? fun header => iequals header.name (ascii "content-length") with
  | none => .ok 0
  | some header => lexicalCast header.value

/-- A handler that waits for its first read, the `int` having become a `size_t`. -/
def start (contentLength : Int32) : ConnectionHandler :=
  ConnectionHandler.readChunk ⟨[], none⟩ (UInt64.ofInt contentLength.toInt)

/-- `ConnectionHandler::operator()`: what is asked of the connection besides reading, and the handler. -/
def call (lexicalCast : Bytes → Except BadLexicalCast Int32) (headers : List Header) :
    Except BadLexicalCast (List ConnCall × ConnectionHandler) := do
  let contentLength ← findContentLength lexicalCast headers
  if contentLength.toInt ≥ kMaxRequestBodyLength then
    return ([.write (ascii "Hello, World")], ⟨[], none⟩)
  else
    return ([.setStatus .ok, .setHeaders [⟨ascii "Content-Type", ascii "text/plain"⟩,
      ⟨ascii "Content-Length", ascii "12"⟩], .write (ascii "Hello, World")], start contentLength)

/-- Why a callback is not called. -/
inductive Failure
  | notReading
  deriving Repr, DecidableEq

/-- The callback of the read the handler waits for; what it logs. -/
def step (h : ConnectionHandler) (r : PostRead) : Except Failure (List LogLine × ConnectionHandler) :=
  match h.reading with
  | none => .error .notReading
  | some needToRead => .ok (ConnectionHandler.handlePostRead { h with reading := none } r needToRead)

/-! ### What it is for -/

/-- What is received by a callback: nothing, if there was an error. -/
def PostRead.received (r : PostRead) : Bytes := if r.ec = none then r.data else []

/-- What is received by all of them. -/
def received (rs : List PostRead) : Bytes := rs.flatMap PostRead.received

/-- After callbacks, of which the last one has logged `lines`: the count is of the bytes that are left, reading
has stopped if there is none, and the body is what was received. -/
structure Sound (contentLength : ℤ) (rs : List PostRead) (lines : List LogLine) (h : ConnectionHandler) :
    Prop where
  remain : ∀ size left, .remain size left ∈ lines → (left.toNat : ℤ) = contentLength - (received rs).length
  stops : contentLength ≤ (received rs).length → h.reading = none
  body : h.body = received rs

/-- It is so after every callback. -/
def AlwaysSound (contentLength : Int32) (rs : List PostRead) : Prop :=
  ∀ done r, done ++ [r] <+: rs → ∀ out lines h,
    run step (start contentLength) (done ++ [r]) = .ok (out ++ [lines], h) →
      Sound contentLength.toInt (done ++ [r]) lines h

/-- No callback takes what is received past the length. -/
def Fits (contentLength : Int32) (rs : List PostRead) : Prop :=
  ∀ done r, done ++ [r] <+: rs → r.ec = none →
    ((received (done ++ [r])).length : ℤ) ≤ contentLength.toInt

/-! ### One callback -/

theorem received_concat (rs : List PostRead) (r : PostRead) :
    received (rs ++ [r]) = received rs ++ r.received := by
  rw [received, List.flatMap_append, List.flatMap_singleton]
  rfl

theorem PostRead.length_data (r : PostRead) : r.data.length = r.size.toNat := by
  rw [data, List.length_take]
  exact Nat.min_eq_left r.inBounds

section Callback

variable {contentLength : ℤ} {rs : List PostRead} {h h' : ConnectionHandler} {r : PostRead}
  {lines : List LogLine}

/-- The invariant: what is received is in the body, and a read that is waited for is for the rest.  (A length
that is negative has no rest.) -/
structure Inv (contentLength : ℤ) (rs : List PostRead) (h : ConnectionHandler) : Prop where
  body : h.body = received rs
  count : ∀ needToRead, h.reading = some needToRead → ((received rs).length : ℤ) ≤ contentLength →
    (needToRead.toNat : ℤ) = contentLength - (received rs).length

/-- **A callback** that does not go past the length keeps the count. -/
theorem step_sound (hinv : Inv contentLength rs h)
    (hfits : r.ec = none → ((received (rs ++ [r])).length : ℤ) ≤ contentLength)
    (hstep : step h r = .ok (lines, h')) :
    Inv contentLength (rs ++ [r]) h' ∧ Sound contentLength (rs ++ [r]) lines h' := by
  rw [step] at hstep
  cases hreading : h.reading with
  | none =>
    rw [hreading] at hstep
    cases hstep
  | some needToRead =>
    rw [hreading] at hstep
    dsimp only at hstep
    rw [Except.ok.injEq, ConnectionHandler.handlePostRead] at hstep
    cases hec : r.ec with
    | some e =>
      rw [hec] at hstep
      cases hstep
      have hsame : received (rs ++ [r]) = received rs := by
        rw [received_concat, PostRead.received, if_neg (by rw [hec]; exact Option.some_ne_none e),
          List.append_nil]
      refine ⟨⟨?_, nofun⟩, nofun, fun _ => rfl, ?_⟩
      · rw [hsame]
        exact hinv.body
      · rw [hsame]
        exact hinv.body
    | none =>
      rw [hec] at hstep
      have hmore : received (rs ++ [r]) = received rs ++ r.data := by
        rw [received_concat, PostRead.received, if_pos hec]
      have hlength : (received (rs ++ [r])).length = (received rs).length + r.size.toNat := by
        rw [hmore, List.length_append, r.length_data]
      have hle := hfits hec
      have hneed := hinv.count needToRead hreading (by omega)
      have hsub : (needToRead - r.size).toNat = needToRead.toNat - r.size.toNat :=
        UInt64.toNat_sub_of_le _ _ (UInt64.le_iff_toNat_le.mpr (by omega))
      have hleft : ((needToRead - r.size).toNat : ℤ) = contentLength - (received (rs ++ [r])).length := by
        omega
      have hbody : h.body ++ r.data = received (rs ++ [r]) := by rw [hmore, hinv.body]
      dsimp only at hstep
      split_ifs at hstep with hpos
      · cases hstep
        have hpos' : 0 < (needToRead - r.size).toNat := UInt64.lt_iff_toNat_lt.mp hpos
        refine ⟨⟨hbody, ?_⟩, ?_, fun hstop => by omega, hbody⟩
        · rintro _ ⟨⟩ -
          exact hleft
        · intro size left hmem
          obtain ⟨-, rfl⟩ : size = r.size ∧ left = needToRead - r.size := by simpa using hmem
          exact hleft
      · cases hstep
        refine ⟨⟨hbody, nofun⟩, ?_, fun _ => rfl, hbody⟩
        intro size left hmem
        obtain ⟨-, rfl⟩ : size = r.size ∧ left = needToRead - r.size := by simpa using hmem
        exact hleft

/-- What is left is logged. -/
theorem exists_remain (hstep : step h r = .ok (lines, h')) (hec : r.ec = none) :
    ∃ left, .remain r.size left ∈ lines := by
  rw [step] at hstep
  cases hreading : h.reading with
  | none =>
    rw [hreading] at hstep
    cases hstep
  | some needToRead =>
    rw [hreading] at hstep
    dsimp only at hstep
    rw [Except.ok.injEq, ConnectionHandler.handlePostRead, hec] at hstep
    refine ⟨needToRead - r.size, ?_⟩
    dsimp only at hstep
    split_ifs at hstep
    · cases hstep
      exact List.mem_cons_self
    · cases hstep
      exact List.mem_cons_self

end Callback

/-! ### All callbacks -/

section Run

variable {contentLength : Int32} {rs : List PostRead} {h : ConnectionHandler} {out : List (List LogLine)}

theorem inv_start (contentLength : Int32) : Inv contentLength.toInt [] (start contentLength) := by
  refine ⟨rfl, ?_⟩
  rintro _ ⟨⟩ hnonneg
  have hlt := contentLength.toInt_lt
  have hlength : (received []).length = 0 := rfl
  rw [UInt64.ofInt, UInt64.toNat_ofNat']
  omega

theorem Fits.of_prefix {done : List PostRead} (h : Fits contentLength rs) (hdone : done <+: rs) :
    Fits contentLength done :=
  fun _ r hr hec => h _ r (hr.trans hdone) hec

/-- The handler after callbacks that do not go past the length. -/
theorem run_start (hfits : Fits contentLength rs) (hrun : run step (start contentLength) rs = .ok (out, h)) :
    Inv contentLength.toInt rs h := by
  induction rs using List.reverseRecOn generalizing out h with
  | nil =>
    cases hrun
    exact inv_start contentLength
  | append_singleton rs r ih =>
    obtain ⟨out', h₁, lines, hfront, hlast, -⟩ := run_concat_eq_ok hrun
    have hinv := ih (hfits.of_prefix (List.prefix_append rs [r])) hfront
    exact (step_sound hinv (fun hec => hfits rs r List.prefix_rfl hec) hlast).1

/-- **The count never goes below zero**: after every callback it is of the bytes that are left, reading stops
when there are none, and the body is what was received, exactly if no callback without an error takes what is
received past the length. -/
theorem handler_sound_iff (hrun : run step (start contentLength) rs = .ok (out, h)) :
    AlwaysSound contentLength rs ↔ Fits contentLength rs := by
  constructor
  · intro hsound done r hdone hec
    obtain ⟨out', h', hrun'⟩ := run_of_prefix hdone hrun
    obtain ⟨out₁, h₁, lines, -, hlast, rfl⟩ := run_concat_eq_ok hrun'
    obtain ⟨left, hmem⟩ := exists_remain hlast hec
    have hleft := (hsound done r hdone out₁ lines h' hrun').remain r.size left hmem
    omega
  · intro hfits done r hdone out' lines h' hrun'
    obtain ⟨out₁, h₁, lines₁, hfront, hlast, hout⟩ := run_concat_eq_ok hrun'
    obtain ⟨-, hlines⟩ := List.append_inj' hout rfl
    obtain rfl := List.singleton_inj.mp hlines
    have hinv := run_start (hfits.of_prefix ((List.prefix_append done [r]).trans hdone)) hfront
    exact (step_sound hinv (hfits done r hdone) hlast).2

end Run

/-- A read of `n` bytes. -/
def readOf (n : ℕ) (hn : n < 2 ^ 64) : PostRead :=
  ⟨List.replicate n 0x61, none, UInt64.ofNat n, by
    rw [List.length_replicate, UInt64.toNat_ofNat', Nat.mod_eq_of_lt hn]⟩

/-- Three bytes in two reads. -/
theorem handler_sound_three :
    AlwaysSound 3 [readOf 2 (by decide), readOf 1 (by decide)] ↔
      Fits 3 [readOf 2 (by decide), readOf 1 (by decide)] :=
  @handler_sound_iff 3 _ ⟨[0x61, 0x61, 0x61], none⟩
    [[.remain 2 1], [.remain 1 0, .body [0x61, 0x61, 0x61], .done]] rfl

/-- One byte is announced, and a read brings two: 2⁶⁴ - 1 bytes are left. -/
theorem handler_not_sound_two :
    run step (start 1) [readOf 2 (by decide)] =
        .ok ([[.remain 2 0xffffffffffffffff]], ⟨[0x61, 0x61], some 0xffffffffffffffff⟩) ∧
      ¬ AlwaysSound 1 [readOf 2 (by decide)] := by
  have hrun : run step (start 1) [readOf 2 (by decide)] =
      .ok ([[.remain 2 0xffffffffffffffff]], ⟨[0x61, 0x61], some 0xffffffffffffffff⟩) := by decide
  refine ⟨hrun, fun hsound => ?_⟩
  have hstops := (hsound [] _ List.prefix_rfl [] _ _ hrun).stops (by decide)
  exact absurd hstops (by decide)

end LearnNetlib.RestAsync
