import LearnNetlib.Io.BufferedInputStream
import Mathlib.Data.List.DropRight

/-!
# Reading a file line by line

Both `ReadLine`s drop carriage returns and then take an empty result for the end of the file.

* `lines`, `remainder` — the lines of a text, and what stands behind its last newline;
* `ReadsLines` — a reader whose `ReadLine` answers like a cursor's; `inputBuffer_readsLines` and
  `bufferedInputStream_readsLines` are the two;
* `readLines` — calling it until OUT_OF_RANGE; **`readLines_spec`**: one result for every line, but
  none for a last one of carriage returns only;
* **`readLine_atEnd_iff`** — OUT_OF_RANGE means the end, and every line has its result, exactly if the
  text in front does not end in such a line.
-/

namespace LearnNetlib.ReadLines

open LearnNetlib.Runs LearnNetlib.Stream
open InputBuffer (lineAt lineText lineEnds lineStep endOfFile)

/-! ### Lines -/

/-- The lines of a text: one for every newline, and one for what is left if that is not empty. -/
def lines : Bytes → List Bytes
  | [] => []
  | c :: text =>
    if c = 0x0a then [] :: lines text
    else
      match lines text with
      | [] => [[c]]
      | l :: ls => (c :: l) :: ls

/-- What stands behind the last newline. -/
def remainder (text : Bytes) : Bytes := text.rtakeWhile (· ≠ 0x0a)

/-- What `ReadLine` keeps of a line. -/
def kept (line : Bytes) : Bytes := line.filter (· ≠ 0x0d)

/-- Carriage returns and nothing else. -/
def OnlyReturns (text : Bytes) : Prop := text ≠ [] ∧ ∀ c ∈ text, c = 0x0d

instance (text : Bytes) : Decidable (OnlyReturns text) :=
  inferInstanceAs (Decidable (text ≠ [] ∧ ∀ c ∈ text, c = 0x0d))

theorem kept_eq_nil_iff {text : Bytes} : kept text = [] ↔ ∀ c ∈ text, c = 0x0d := by
  rw [kept, List.filter_eq_nil_iff]
  simp

/-- A text without a newline is one line. -/
theorem lines_of_forall_ne {text : Bytes} (h : ∀ c ∈ text, c ≠ 0x0a) (hne : text ≠ []) :
    lines text = [text] := by
  induction text with
  | nil => exact absurd rfl hne
  | cons c text ih =>
    obtain ⟨hc, htext⟩ := List.forall_mem_cons.mp h
    rw [lines, if_neg hc]
    cases text with
    | nil => rfl
    | cons d text => rw [ih htext (List.cons_ne_nil d text)]

/-- A newline ends a line. -/
theorem lines_append_newline {line : Bytes} (h : ∀ c ∈ line, c ≠ 0x0a) (text : Bytes) :
    lines (line ++ 0x0a :: text) = line :: lines text := by
  induction line with
  | nil => rw [List.nil_append, lines, if_pos rfl]
  | cons c line ih =>
    obtain ⟨hc, hline⟩ := List.forall_mem_cons.mp h
    rw [List.cons_append, lines, if_neg hc, ih hline]

theorem lines_ne_nil {text : Bytes} (h : text ≠ []) : lines text ≠ [] := by
  cases text with
  | nil => exact absurd rfl h
  | cons c text =>
    rw [lines]
    split_ifs
    · exact List.cons_ne_nil _ _
    · split <;> exact List.cons_ne_nil _ _

theorem remainder_of_forall_ne {text : Bytes} (h : ∀ c ∈ text, c ≠ 0x0a) : remainder text = text :=
  List.rtakeWhile_eq_self_iff.mpr fun c hc => by simpa using h c hc

theorem remainder_append_newline (line text : Bytes) :
    remainder (line ++ 0x0a :: text) = remainder text := by
  rw [remainder, List.rtakeWhile, List.reverse_append, List.reverse_cons, List.append_assoc,
    List.takeWhile_append]
  split_ifs with hall
  · rw [List.singleton_append, List.takeWhile_cons_of_neg (by simp), List.append_nil, remainder,
      List.rtakeWhile, (List.takeWhile_prefix _).eq_of_length hall]
  · rfl

theorem text_ne_nil_of_remainder {text : Bytes} (h : OnlyReturns (remainder text)) : text ≠ [] := by
  rintro rfl
  exact h.1 rfl

/-! ### The line in front of a cursor -/

section

variable {contents : Bytes} {p : ℕ}

theorem lineAt_ne (contents : Bytes) (p : ℕ) : ∀ c ∈ lineAt contents p, c ≠ 0x0a := by
  intro c hc
  simpa using List.mem_takeWhile_imp hc

/-- A line that ends has a newline behind it. -/
theorem drop_of_lineEnds (h : lineEnds contents p) :
    contents.drop p = lineAt contents p ++ 0x0a :: contents.drop (p + lineStep contents p) := by
  have hsplit := List.takeWhile_append_dropWhile (p := (· ≠ (0x0a : UInt8))) (l := contents.drop p)
  rw [← lineAt] at hsplit
  cases htail : (contents.drop p).dropWhile (· ≠ 0x0a) with
  | nil =>
    rw [htail, List.append_nil] at hsplit
    rw [lineEnds, hsplit] at h
    exact absurd h (lt_irrefl _)
  | cons c tail =>
    have hc : c = 0x0a := by
      have hhead := List.head?_dropWhile_not (· ≠ (0x0a : UInt8)) (contents.drop p)
      rw [htail, List.head?_cons] at hhead
      simpa using hhead
    subst hc
    have htail' : tail = contents.drop (p + lineStep contents p) := by
      rw [htail] at hsplit
      rw [lineStep, if_pos h, ← List.drop_drop, ← hsplit, List.drop_append]
      simp
    rw [← htail', ← htail, hsplit]

/-- A line that does not end is all that is left. -/
theorem lineAt_of_not_lineEnds (h : ¬ lineEnds contents p) : lineAt contents p = contents.drop p :=
  (List.takeWhile_prefix _).eq_of_length_le (not_lt.mp h)

end

/-! ### Calling `ReadLine` until it returns OUT_OF_RANGE -/

/-- The results of such calls, and the reader behind them. -/
def readLines {β : Type} (readLine : β → Access (Status × Bytes × β)) :
    ℕ → β → Access (List Bytes × β)
  | 0, _ => .error .stillRunning
  | calls + 1, b => do
    let (s, line, b) ← readLine b
    if Errors.isOutOfRange s then return ([], b)
    else
      let (results, b) ← readLines readLine calls b
      return (line :: results, b)

/-- A reader that answers like a cursor: OUT_OF_RANGE stands for an empty result at the end. -/
structure ReadsLines {β : Type} (contents : Bytes) (readLine : β → Access (Status × Bytes × β))
    (At : β → ℕ → Prop) : Prop where
  next : ∀ {b p}, At b p → ∃ s b', readLine b = .ok (s, lineText contents p, b') ∧
    At b' (p + lineStep contents p) ∧
    (Errors.isOutOfRange s = true ↔ ¬ lineEnds contents p ∧ lineText contents p = [])

section

variable {β : Type} {contents : Bytes} {readLine : β → Access (Status × Bytes × β)}
  {At : β → ℕ → Prop}

/-- **One result for every line**, but none for a last line of carriage returns only. -/
theorem readLines_spec (h : ReadsLines contents readLine At) {calls : ℕ} {b : β} {p : ℕ} (hb : At b p)
    (hcalls : contents.length - p < calls) :
    ∃ b' p', readLines readLine calls b
        = .ok ((if OnlyReturns (remainder (contents.drop p)) then (lines (contents.drop p)).dropLast
            else lines (contents.drop p)).map kept, b') ∧
      At b' p' ∧ contents.length ≤ p' := by
  induction calls generalizing b p with
  | zero => omega
  | succ calls ih =>
    obtain ⟨s, b₁, hread, hat, hstatus⟩ := h.next hb
    rw [readLines, hread, Access.ok_bind]
    dsimp only
    by_cases hends : lineEnds contents p
    · -- a line with its newline; the rest is the induction hypothesis
      have hdrop := drop_of_lineEnds hends
      have hline := lineAt_ne contents p
      have hstep : p < p + lineStep contents p := by
        rw [lineStep, if_pos hends]
        omega
      have hshort : p < contents.length := by
        rw [lineEnds, List.length_drop] at hends
        omega
      obtain ⟨b₂, p', hrest, hat', hend⟩ := ih hat (by omega)
      rw [if_neg fun hs => (hstatus.mp hs).1 hends, hrest, Access.ok_bind]
      refine ⟨b₂, p', ?_, hat', hend⟩
      rw [hdrop, lines_append_newline hline, remainder_append_newline]
      by_cases honly : OnlyReturns (remainder (contents.drop (p + lineStep contents p)))
      · rw [if_pos honly, if_pos honly,
          List.dropLast_cons_of_ne_nil (lines_ne_nil (text_ne_nil_of_remainder honly))]
        rfl
      · rw [if_neg honly, if_neg honly]
        rfl
    · have hline := lineAt_of_not_lineEnds hends
      have hne := lineAt_ne contents p
      have hend : contents.length ≤ p + lineStep contents p := by
        rw [lineStep, hline, List.length_drop]
        omega
      have htext : lineText contents p = kept (contents.drop p) := by rw [lineText, hline, kept]
      rw [hline] at hne
      rw [remainder_of_forall_ne hne]
      by_cases hkept : kept (contents.drop p) = []
      · rw [if_pos (hstatus.mpr ⟨hends, htext.trans hkept⟩)]
        refine ⟨b₁, _, ?_, hat, hend⟩
        by_cases hempty : contents.drop p = []
        · rw [hempty, if_neg fun honly => honly.1 rfl]
          rfl
        · rw [if_pos ⟨hempty, kept_eq_nil_iff.mp hkept⟩, lines_of_forall_ne hne hempty]
          rfl
      · -- the last line; the next call is at the end
        have hempty : contents.drop p ≠ [] := fun he => hkept (by rw [he]; rfl)
        have hshort : p < contents.length := by
          by_contra hlong
          exact hempty (List.drop_of_length_le (not_lt.mp hlong))
        obtain ⟨b₂, p', hrest, hat', hend'⟩ := ih hat (by omega)
        rw [List.drop_of_length_le hend, if_neg fun honly => text_ne_nil_of_remainder honly rfl]
          at hrest
        rw [if_neg fun hs => hkept (htext ▸ (hstatus.mp hs).2), hrest, Access.ok_bind, htext,
          if_neg fun honly => hkept (kept_eq_nil_iff.mpr honly.2), lines_of_forall_ne hne hempty]
        exact ⟨b₂, p', rfl, hat', hend'⟩

variable (contents) in
/-- What is promised of `ReadLine` at a position: OUT_OF_RANGE means that the position was at the end,
and calling it until then gives as many results as there are lines. -/
structure Promised (calls : ℕ) (readLine : β → Access (Status × Bytes × β)) (b : β) (p : ℕ) :
    Prop where
  atEnd : ∀ s line b', readLine b = .ok (s, line, b') → Errors.isOutOfRange s = true →
    contents.length ≤ p
  results : ∃ results b', readLines readLine calls b = .ok (results, b') ∧
    results.length = (lines (contents.drop p)).length

/-- **When the promise is kept.** -/
theorem promised_iff (h : ReadsLines contents readLine At) {calls : ℕ} {b : β} {p : ℕ} (hb : At b p)
    (hcalls : contents.length - p < calls) :
    Promised contents calls readLine b p ↔ ¬ OnlyReturns (remainder (contents.drop p)) := by
  obtain ⟨b', p', hlines, -⟩ := readLines_spec h hb hcalls
  constructor
  · rintro ⟨-, results, b'', hresults, hlength⟩ honly
    rw [hlines, if_pos honly, Except.ok.injEq, Prod.mk.injEq] at hresults
    obtain ⟨rfl, -⟩ := hresults
    rw [List.length_map, List.length_dropLast] at hlength
    have hpos := List.length_pos_iff.mpr (lines_ne_nil (text_ne_nil_of_remainder honly))
    omega
  · intro honly
    rw [if_neg honly] at hlines
    refine ⟨fun s line b'' hread hs => ?_, _, b', hlines, List.length_map ..⟩
    obtain ⟨s', b₁, hnext, -, hstatus⟩ := h.next hb
    rw [hnext, Except.ok.injEq, Prod.mk.injEq] at hread
    obtain ⟨rfl, -⟩ := hread
    obtain ⟨hends, htext⟩ := hstatus.mp hs
    have hline := lineAt_of_not_lineEnds hends
    have hne := lineAt_ne contents p
    rw [hline] at hne
    rw [remainder_of_forall_ne hne] at honly
    -- nothing was kept although nothing is carriage returns only: there was nothing
    by_contra hlong
    refine honly ⟨fun he => hlong (List.drop_eq_nil_iff.mp he), kept_eq_nil_iff.mp ?_⟩
    rwa [lineText, hline] at htext

end

/-! ### The two readers -/

section

variable {contents : Bytes} {size fuel : ℕ}

theorem inputBuffer_readsLines {file : RandomAccessFile} (hfile : file.Serves contents)
    (hsize : 1 ≤ size) (hfuel : contents.length < fuel) :
    ReadsLines contents (InputBuffer.readLine file size fuel) (InputBuffer.Tracks contents) where
  next {b p} h := by
    obtain ⟨b', hline, h'⟩ := InputBuffer.readLineLoop_spec hfile hsize fuel (.inl rfl) [] h
      (show contents.length - p < fuel by omega)
    rw [List.nil_append] at hline
    refine ⟨_, b', hline, h', ?_⟩
    rw [InputBuffer.lineStatus]
    split_ifs with hends htext
    · exact iff_of_false (by decide) fun hno => hno.1 hends
    · exact iff_of_true rfl ⟨hends, htext⟩
    · exact iff_of_false (by decide) fun hno => htext hno.2

theorem bufferedInputStream_readsLines {σ : Type} {stream : InputStreamInterface σ}
    {At : ℕ → σ → Prop} (hstream : Delivers stream contents At) (hsize : 1 ≤ size)
    (hfuel : contents.length < fuel) :
    ReadsLines contents (BufferedInputStream.readLineHelper stream size false fuel)
      (BufferedInputStream.Tracks contents At) where
  next {b p} h := by
    obtain ⟨b', hline, h'⟩ := BufferedInputStream.readLineLoop_spec hstream hsize false (.inl rfl) [] h
      (show contents.length - p < fuel by omega)
    rw [List.nil_append, List.nil_append, BufferedInputStream.lineString,
      if_neg fun hno => absurd hno.1 (by decide), List.append_nil] at hline
    refine ⟨_, b', hline, h', ?_⟩
    rw [BufferedInputStream.lineStatus]
    split_ifs with hend
    · exact iff_of_true rfl hend
    · exact iff_of_false (by decide) hend

/-- **When `ReadLine` keeps its promise.**  For every file content, every buffer size and every
operations before: `ReadLine` returns OUT_OF_RANGE at the end only, and calling it until then gives one
result for every line, exactly if what stands behind the last newline in front of the position is not
carriage returns only. -/
theorem readLine_atEnd_iff (contents : Bytes) (size : ℕ) (hsize : 1 ≤ size) (fuel : ℕ)
    (hfuel : contents.length < fuel) :
    (∀ file : RandomAccessFile, file.Serves contents → ∀ ops : List InputBuffer.Op, ∃ outs b,
      run (InputBuffer.step file size fuel) InputBuffer.init ops = .ok (outs, b) ∧
      ∃ p : ℕ, InputBuffer.tell b = p ∧
        (Promised contents fuel (InputBuffer.readLine file size fuel) b p ↔
          ¬ OnlyReturns (remainder (contents.drop p)))) ∧
    ∀ file : ReadableFile, file.Answers contents → ∀ ops : List BufferedInputStream.Op, ∃ outs b,
      run (BufferedInputStream.step (randomAccessInputStream file fuel) size fuel)
        (BufferedInputStream.init ⟨0, []⟩) ops = .ok (outs, b) ∧
      ∃ p : ℕ, BufferedInputStream.tell (randomAccessInputStream file fuel) b = p ∧
        (Promised contents fuel
            (BufferedInputStream.readLineHelper (randomAccessInputStream file fuel) size false fuel)
            b p ↔
          ¬ OnlyReturns (remainder (contents.drop p))) := by
  constructor
  · intro file hfile ops
    obtain ⟨b, hrun, htracks⟩ :=
      run_refines (R := InputBuffer.Tracks contents)
        (fun b p op h _ => InputBuffer.step_refines hfile hsize hfuel h op)
        (InputBuffer.tracks_init contents) (permitted_true (InputBuffer.cursorStep contents) 0 ops)
    exact ⟨_, b, hrun, _, htracks.tell_eq,
      promised_iff (inputBuffer_readsLines hfile hsize hfuel) htracks (by omega)⟩
  · intro file hfile ops
    have hstream := randomAccessInputStream_delivers hfile hfuel
    have hinit : BufferedInputStream.Tracks contents (RandomAt contents)
        (BufferedInputStream.init ⟨0, []⟩) 0 :=
      BufferedInputStream.tracks_empty [] ⟨rfl, Nat.zero_le _⟩
    obtain ⟨b, hrun, htracks⟩ :=
      run_refines (R := BufferedInputStream.Tracks contents (RandomAt contents))
        (fun b p op h _ => BufferedInputStream.step_refines hstream hsize hfuel h op) hinit
        (permitted_true (BufferedInputStream.cursorStep contents) 0 ops)
    exact ⟨_, b, hrun, _, htracks.tell_eq hstream,
      promised_iff (bufferedInputStream_readsLines hstream hsize hfuel) htracks (by omega)⟩

end

/-- Two lines behind a kernel that reads all it is asked for. -/
theorem readLine_atEnd_iff_small :
    ∃ outs b, run (InputBuffer.step (linuxRandomAccessFile (RegularFile.whole [0x61, 0x0d, 0x0a, 0x62]))
        2 5) InputBuffer.init [] = .ok (outs, b) ∧
      ∃ p : ℕ, InputBuffer.tell b = p ∧
        (Promised [0x61, 0x0d, 0x0a, 0x62] 5 (InputBuffer.readLine
            (linuxRandomAccessFile (RegularFile.whole [0x61, 0x0d, 0x0a, 0x62])) 2 5) b p ↔
          ¬ OnlyReturns (remainder (List.drop p [0x61, 0x0d, 0x0a, 0x62]))) :=
  (readLine_atEnd_iff [0x61, 0x0d, 0x0a, 0x62] 2 (by decide) 5 (by decide)).1 _
    (linuxRandomAccessFile_serves _) []

/-- **A carriage return at the end of the file**: at position 0 of a file of one such byte both
`ReadLine`s return OUT_OF_RANGE. -/
theorem readLine_outOfRange_before_end :
    (∃ b, InputBuffer.readLine (linuxRandomAccessFile (RegularFile.whole [0x0d])) 2 2 InputBuffer.init
        = .ok (endOfFile, [], b)) ∧
    (∃ b, BufferedInputStream.readLineHelper (randomAccessInputStream (steadyFile
        (linuxRandomAccessFile (RegularFile.whole [0x0d]))) 2) 2 false 2
        (BufferedInputStream.init ⟨0, []⟩) = .ok (reachedEnd, [], b)) ∧
    ¬ Promised [0x0d] 2 (InputBuffer.readLine (linuxRandomAccessFile (RegularFile.whole [0x0d])) 2 2)
        InputBuffer.init 0 ∧
    ¬ Promised [0x0d] 2 (BufferedInputStream.readLineHelper (randomAccessInputStream (steadyFile
        (linuxRandomAccessFile (RegularFile.whole [0x0d]))) 2) 2 false 2)
        (BufferedInputStream.init ⟨0, []⟩) 0 := by
  refine ⟨⟨_, rfl⟩, ⟨_, rfl⟩, fun h => ?_, fun h => ?_⟩
  · exact absurd (h.atEnd _ _ _ rfl rfl) (by decide)
  · exact absurd (h.atEnd _ _ _ rfl rfl) (by decide)

end LearnNetlib.ReadLines
