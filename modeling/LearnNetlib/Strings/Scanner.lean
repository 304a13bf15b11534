import LearnNetlib.Base.Bytes

/-!
# `strings::Scanner`

`base/strings/scanner.h`: a string is parsed by a chain of calls, and `GetResult` tells at the end what
remains and what was captured.

* `CharClass.matches`, `Scanner` — the code; positions are offsets into the scanned text;
* `getResult_of_error`, `error_many`, `error_oneLiteral` — a failed call is never forgotten;
* `one_cons_pos`, `rest_any`, `scanUntilLoop_append`, `scanUntilLoop_of_notMem` — what a call does to the
  rest of the text.
-/

namespace LearnNetlib.Strings

/-- `Scanner::CharClass`. -/
inductive CharClass
  | all
  | digit
  | letter
  | letterDigit
  | letterDigitDashUnderscore
  | letterDigitDashDotSlash
  | letterDigitDashDotSlashUnderscore
  | letterDigitDot
  | letterDigitDotPlusMinus
  | letterDigitDotUnderscore
  | letterDigitUnderscore
  | lowerLetter
  | lowerLetterDigit
  | lowerLetterDigitUnderscore
  | nonZeroDigit
  | space
  | upperLetter
  deriving Repr, DecidableEq

namespace Scanner

/-- `IsLowerLetter`. -/
def isLowerLetter (ch : UInt8) : Bool := 'a'.toUInt8 ≤ ch ∧ ch ≤ 'z'.toUInt8

/-- The letters of `UPPERLETTER`. -/
def isUpperLetter (ch : UInt8) : Bool := 'A'.toUInt8 ≤ ch ∧ ch ≤ 'Z'.toUInt8

/-- `IsLetter`. -/
def isLetter (ch : UInt8) : Bool := isLowerLetter ch || isUpperLetter ch

/-- `IsDigit`. -/
def isDigit (ch : UInt8) : Bool := '0'.toUInt8 ≤ ch ∧ ch ≤ '9'.toUInt8

/-- `IsSpace`. -/
def isSpace (ch : UInt8) : Bool :=
  ch = ' '.toUInt8 ∨ ch = '\t'.toUInt8 ∨ ch = '\n'.toUInt8 ∨ ch = '\x0b'.toUInt8 ∨ ch = '\x0c'.toUInt8
    ∨ ch = '\r'.toUInt8

end Scanner

open Scanner in
/-- `Matches`. -/
def CharClass.matches : CharClass → UInt8 → Bool
  | all, _ => true
  | digit, ch => isDigit ch
  | letter, ch => isLetter ch
  | letterDigit, ch => isLetter ch || isDigit ch
  | letterDigitDashUnderscore, ch =>
    isLetter ch || isDigit ch || ch == '-'.toUInt8 || ch == '_'.toUInt8
  | letterDigitDashDotSlash, ch =>
    isLetter ch || isDigit ch || ch == '-'.toUInt8 || ch == '.'.toUInt8 || ch == '/'.toUInt8
  | letterDigitDashDotSlashUnderscore, ch =>
    isLetter ch || isDigit ch || ch == '-'.toUInt8 || ch == '.'.toUInt8 || ch == '/'.toUInt8
      || ch == '_'.toUInt8
  | letterDigitDot, ch => isLetter ch || isDigit ch || ch == '.'.toUInt8
  | letterDigitDotPlusMinus, ch =>
    isLetter ch || isDigit ch || ch == '+'.toUInt8 || ch == '-'.toUInt8 || ch == '.'.toUInt8
  | letterDigitDotUnderscore, ch =>
    isLetter ch || isDigit ch || ch == '.'.toUInt8 || ch == '_'.toUInt8
  | letterDigitUnderscore, ch => isLetter ch || isDigit ch || ch == '_'.toUInt8
  | lowerLetter, ch => isLowerLetter ch
  | lowerLetterDigit, ch => isLowerLetter ch || isDigit ch
  | lowerLetterDigitUnderscore, ch => isLowerLetter ch || isDigit ch || ch == '_'.toUInt8
  | nonZeroDigit, ch => isDigit ch && ch != '0'.toUInt8
  | space, ch => isSpace ch
  | upperLetter, ch => isUpperLetter ch

/-- `Scanner`: `cur_`, `capture_start_` and `capture_end_` as offsets into the text. -/
structure Scanner where
  source : Bytes
  cur : ℕ
  captureStart : ℕ
  captureEnd : Option ℕ
  error : Bool
  deriving Repr, DecidableEq

namespace Scanner

/-! ### The code -/

/-- `Scanner(source)`. -/
def new (source : Bytes) : Scanner := ⟨source, 0, 0, none, false⟩

/-- What `cur_` points at. -/
def rest (s : Scanner) : Bytes := s.source.drop s.cur

/-- `Error`. -/
def fail (s : Scanner) : Scanner := { s with error := true }

/-- `One(clz)`. -/
def one (clz : CharClass) (s : Scanner) : Scanner :=
  match s.rest with
  | [] => s.fail
  | ch :: _ => if clz.matches ch then { s with cur := s.cur + 1 } else s.fail

/-- `OneLiteral(t)`. -/
def oneLiteral (t : Bytes) (s : Scanner) : Scanner :=
  if t.isPrefixOf s.rest then { s with cur := s.cur + t.length } else s.fail

/-- How many characters the loop of `Any(clz)` passes over. -/
def anyLoop (clz : CharClass) : Bytes → ℕ
  | [] => 0
  | ch :: rest => if clz.matches ch then anyLoop clz rest + 1 else 0

/-- `Any(clz)`. -/
def any (clz : CharClass) (s : Scanner) : Scanner :=
  { s with cur := s.cur + anyLoop clz s.rest }

/-- `Many(clz)`. -/
def many (clz : CharClass) (s : Scanner) : Scanner := (s.one clz).any clz

/-- `StopCapture()`. -/
def stopCapture (s : Scanner) : Scanner := { s with captureEnd := some s.cur }

/-- The loop of `ScanUntilImpl`: where it ends, and whether that is an error. -/
def scanUntilLoop (endCh : UInt8) (escaped : Bool) : Bytes → ℕ → ℕ × Bool
  | [], cur => (cur, true)
  | ch :: rest, cur =>
    if ch = endCh then (cur, false)
    else if escaped ∧ ch = '\\'.toUInt8 then
      -- Escape character, skip next character.
      match rest with
      | [] => (cur + 1, true)
      | _ :: rest => scanUntilLoop endCh escaped rest (cur + 2)
    else scanUntilLoop endCh escaped rest (cur + 1)

/-- `ScanUntilImpl(end_ch, escaped)`. -/
def scanUntilImpl (endCh : UInt8) (escaped : Bool) (s : Scanner) : Scanner :=
  let (cur, failed) := scanUntilLoop endCh escaped s.rest s.cur
  { s with cur, error := s.error || failed }

/-- `ScanUntil(end_ch)`. -/
def scanUntil (endCh : UInt8) (s : Scanner) : Scanner := s.scanUntilImpl endCh false

/-- `GetResult(remaining, capture)`; nothing is returned through the pointers when it is `false`. -/
def getResult (s : Scanner) : Option (Bytes × Bytes) :=
  if s.error then none
  else some (s.rest, (s.source.drop s.captureStart).take (s.captureEnd.getD s.cur - s.captureStart))

/-! ### A failed call is never forgotten -/

@[simp] theorem getResult_of_error {s : Scanner} (h : s.error = true) : s.getResult = none := if_pos h

@[simp] theorem error_fail (s : Scanner) : s.fail.error = true := rfl

@[simp] theorem error_any (clz : CharClass) (s : Scanner) : (s.any clz).error = s.error := rfl

@[simp] theorem error_stopCapture (s : Scanner) : s.stopCapture.error = s.error := rfl

theorem error_one {clz : CharClass} {s : Scanner} (h : s.error = true) : (s.one clz).error = true := by
  rw [one]
  cases s.rest with
  | nil => rfl
  | cons ch rest =>
    show (if clz.matches ch then _ else _ : Scanner).error = true
    split_ifs
    · exact h
    · rfl

theorem error_oneLiteral {t : Bytes} {s : Scanner} (h : s.error = true) :
    (s.oneLiteral t).error = true := by
  rw [oneLiteral]
  split_ifs
  · exact h
  · rfl

theorem error_many {clz : CharClass} {s : Scanner} (h : s.error = true) : (s.many clz).error = true :=
  error_one h

/-! ### What a call does -/

variable {s : Scanner} {clz : CharClass}

/-- A call that advances. -/
theorem rest_advance (s : Scanner) (n : ℕ) : rest { s with cur := s.cur + n } = s.rest.drop n := by
  rw [rest, rest, List.drop_drop]

theorem one_cons_pos {ch : UInt8} {r : Bytes} (hrest : s.rest = ch :: r) (hch : clz.matches ch = true) :
    s.one clz = { s with cur := s.cur + 1 } := by
  rw [one, hrest]
  exact if_pos hch

theorem one_cons_neg {ch : UInt8} {r : Bytes} (hrest : s.rest = ch :: r)
    (hch : ¬ clz.matches ch = true) : s.one clz = s.fail := by
  rw [one, hrest]
  exact if_neg hch

theorem anyLoop_eq (clz : CharClass) (r : Bytes) : anyLoop clz r = (r.takeWhile clz.matches).length := by
  induction r with
  | nil => rfl
  | cons ch r ih =>
    rw [anyLoop]
    split_ifs with hch
    · rw [List.takeWhile_cons_of_pos hch, List.length_cons, ih]
    · rw [List.takeWhile_cons_of_neg hch, List.length_nil]

/-- `Any` passes over all characters of the class, and what remains does not begin with one. -/
theorem rest_any (clz : CharClass) (s : Scanner) : (s.any clz).rest = s.rest.dropWhile clz.matches := by
  show rest { s with cur := s.cur + anyLoop clz s.rest } = _
  rw [rest_advance, anyLoop_eq]
  calc s.rest.drop (s.rest.takeWhile clz.matches).length
      = (s.rest.takeWhile clz.matches ++ s.rest.dropWhile clz.matches).drop
          (s.rest.takeWhile clz.matches).length := by rw [List.takeWhile_append_dropWhile]
    _ = s.rest.dropWhile clz.matches := List.drop_left

theorem scanUntilLoop_cons_of_ne {endCh ch : UInt8} (h : ch ≠ endCh) (r : Bytes) (cur : ℕ) :
    scanUntilLoop endCh false (ch :: r) cur = scanUntilLoop endCh false r (cur + 1) := by
  rw [scanUntilLoop.eq_def]
  dsimp only
  rw [if_neg h, if_neg (by simp)]

theorem scanUntilLoop_append {endCh : UInt8} {pre : Bytes} (hpre : endCh ∉ pre) (post : Bytes)
    (cur : ℕ) : scanUntilLoop endCh false (pre ++ endCh :: post) cur = (cur + pre.length, false) := by
  induction pre generalizing cur with
  | nil =>
    rw [List.nil_append, scanUntilLoop.eq_def]
    exact if_pos rfl
  | cons ch pre ih =>
    obtain ⟨hne, hpre⟩ := not_or.mp (mt List.mem_cons.mpr hpre)
    rw [List.cons_append, scanUntilLoop_cons_of_ne (Ne.symm hne), ih hpre, List.length_cons,
      Nat.add_assoc, Nat.add_comm 1]

theorem scanUntilLoop_of_notMem {endCh : UInt8} {r : Bytes} (h : endCh ∉ r) (cur : ℕ) :
    (scanUntilLoop endCh false r cur).2 = true := by
  induction r generalizing cur with
  | nil => rfl
  | cons ch r ih =>
    obtain ⟨hne, hr⟩ := not_or.mp (mt List.mem_cons.mpr h)
    rw [scanUntilLoop_cons_of_ne (Ne.symm hne)]
    exact ih hr _

/-- `ScanUntil` stops at the first `end_ch`, which is not consumed. -/
theorem getResult_scanUntil_append {endCh : UInt8} {pre : Bytes} (hpre : endCh ∉ pre) (post : Bytes) :
    ((new (pre ++ endCh :: post)).scanUntil endCh).getResult = some (endCh :: post, pre) := by
  have hloop : scanUntilLoop endCh false (pre ++ endCh :: post) 0 = (pre.length, false) := by
    rw [scanUntilLoop_append hpre, Nat.zero_add]
  have hscan : (new (pre ++ endCh :: post)).scanUntil endCh
      = ⟨pre ++ endCh :: post, pre.length, 0, none, false⟩ := by
    show scanUntilImpl endCh false ⟨pre ++ endCh :: post, 0, 0, none, false⟩ = _
    rw [scanUntilImpl]
    show (fun r : ℕ × Bool => (⟨_, r.1, 0, none, false || r.2⟩ : Scanner))
      (scanUntilLoop endCh false (pre ++ endCh :: post) 0) = _
    rw [hloop]
    rfl
  rw [hscan, getResult, if_neg (by simp), rest]
  show some ((pre ++ endCh :: post).drop pre.length, (pre ++ endCh :: post).take pre.length) = _
  rw [List.drop_left, List.take_left]

theorem getResult_scanUntil_of_notMem {endCh : UInt8} {text : Bytes} (h : endCh ∉ text) :
    ((new text).scanUntil endCh).getResult = none :=
  getResult_of_error (scanUntilLoop_of_notMem h 0)

end Scanner

end LearnNetlib.Strings
