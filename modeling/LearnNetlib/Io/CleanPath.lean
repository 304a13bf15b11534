import LearnNetlib.Io.Path
import LearnNetlib.Foundations.LexicalPath

/-!
# `CleanPath`

* `Cursors`, `rewrite`, `cleanPath` — the code of `base/io/path.cc`, which rewrites the path in place;
  every access to the string is checked, and every write put on record;
* `At` — the invariant: what is written is in front of `dst`, and what is unread is as it was;
* `At.put` — one byte copied; `At.skipSeparators_spec`, `At.copyPart_spec`, `backtrack_spec` — the small
  loops.
-/

namespace LearnNetlib.Path

/-- `'.'`. -/
def dot : UInt8 := 0x2e

/-! ### The code -/

/-- `path`, and `src`, `dst` and `backtrack_limit` as positions in it. -/
structure Cursors where
  path : Bytes
  src : ℕ
  dst : ℕ
  backtrackLimit : ℕ
  /-- For the record: where bytes were written, and where each was read. -/
  writes : List (ℕ × ℕ)
  deriving Repr, DecidableEq

namespace Cursors

/-- `src[i]`, of a string that ends in a NUL. -/
def charAt (s : Cursors) (i : ℕ) : Access UInt8 := readByte (s.path ++ [0]) (s.src + i)

/-- `dst[-1]`. -/
def before (s : Cursors) : Access UInt8 :=
  match s.dst with
  | 0 => .error .outOfBounds
  | d + 1 => readByte s.path d

/-- `++src`. -/
def next (s : Cursors) : Cursors := { s with src := s.src + 1 }

/-- `--dst`. -/
def back (s : Cursors) : Access Cursors :=
  if 0 < s.dst then .ok { s with dst := s.dst - 1 } else .error .outOfBounds

/-- `*dst++ = *src`. -/
def put (s : Cursors) : Access Cursors := do
  let c ← s.charAt 0
  if s.dst < s.path.length then
    return { s with
      path := s.path.set s.dst c, dst := s.dst + 1, writes := s.writes ++ [(s.dst, s.src)] }
  else .error .outOfBounds

/-- `if (*src) ++src;`. -/
def skipOne (s : Cursors) : Access Cursors := do
  let c ← s.charAt 0
  if c ≠ 0 then return s.next else return s

/-- `while (*src == '/') ++src;`. -/
def skipSeparators : ℕ → Cursors → Access Cursors
  | 0, _ => .error .stillRunning
  | n + 1, s => do
    let c ← s.charAt 0
    if c = slash then skipSeparators n s.next else return s

/-- The loop that backtracks, after its first `--dst`. -/
def backtrack : ℕ → Cursors → Access Cursors
  | 0, _ => .error .stillRunning
  | n + 1, s =>
    if s.dst = s.backtrackLimit then .ok s
    else do
      let c ← s.before
      if c = slash then return s
      else do
        let s ← s.back
        backtrack n s

/-- Copy a `..` and what follows it. -/
def copyUp (s : Cursors) : Access Cursors := do
  let s ← s.put
  let s ← s.next.put
  let s := s.next
  let c ← s.charAt 0
  let s ← (if c ≠ 0 then s.put else .ok s)
  -- We can never backtrack over a copied "../" part so set new limit.
  return { s with backtrackLimit := s.dst }

/-- A `..` that ends at a separator or at the end. -/
def parent (isAbsolutePath : Bool) (n : ℕ) (s : Cursors) : Access Cursors := do
  let s := s.next.next
  let s ← (if s.dst ≠ s.backtrackLimit then do
      -- We can backtrack the previous part
      let s ← s.back
      backtrack n s
    else if isAbsolutePath = false then
      -- Failed to backtrack and we can't skip it either. Rewind and copy.
      copyUp { s with src := s.src - 2 }
    else .ok s)
  s.skipOne

/-- The loop that copies a part. -/
def copyPart : ℕ → Cursors → Access Cursors
  | 0, _ => .error .stillRunning
  | n + 1, s => do
    let c ← s.charAt 0
    if c ≠ 0 ∧ c ≠ slash then do
      let s ← s.put
      copyPart n s.next
    else return s

/-- Copy entire part until the next separator or the end. -/
def copy (n : ℕ) (s : Cursors) : Access Cursors := do
  let s ← copyPart n s
  let c ← s.charAt 0
  if c ≠ 0 then do
    let s ← s.put
    return s.next
  else return s

/-- A turn of the main loop, but for the separators behind the part. -/
def part (isAbsolutePath : Bool) (n : ℕ) (s : Cursors) : Access Cursors := do
  let c₀ ← s.charAt 0
  if c₀ = dot then do
    let c₁ ← s.charAt 1
    if c₁ = slash ∨ c₁ = 0 then s.next.skipOne
    else if c₁ = dot then do
      let c₂ ← s.charAt 2
      if c₂ = slash ∨ c₂ = 0 then s.parent isAbsolutePath n else s.copy n
    else s.copy n
  else s.copy n

/-- The main loop. -/
def parts (isAbsolutePath : Bool) (n : ℕ) : ℕ → Cursors → Access Cursors
  | 0, _ => .error .stillRunning
  | turns + 1, s => do
    let c ← s.charAt 0
    if c = 0 then return s
    else do
      let s ← s.part isAbsolutePath n
      let s ← skipSeparators n s
      parts isAbsolutePath n turns s

end Cursors

/-- `CleanPath` up to the end of its main loop. -/
def rewrite (uncleanPath : Bytes) : Access Cursors := do
  let s : Cursors := ⟨uncleanPath, 0, 0, 0, []⟩
  let n := uncleanPath.length + 1
  let c ← s.charAt 0
  let s ← (if c = slash then do
      let s ← s.put
      Cursors.skipSeparators n s.next
    else .ok s)
  Cursors.parts (c = slash) n n { s with backtrackLimit := s.dst }

/-- What ends `CleanPath` without a result. -/
inductive Failure
  | memory (s : Stop)
  /-- `std::length_error`. -/
  | lengthError
  deriving Repr, DecidableEq

/-- `path.resize(n)`; a negative `int` becomes a length that no string has. -/
def resize (path : Bytes) (n : ℤ) : Except Failure Bytes :=
  if n < 0 then .error .lengthError
  else .ok (path.take n.toNat ++ List.replicate (n.toNat - path.length) 0)

/-- `CleanPath`. -/
def cleanPath (uncleanPath : Bytes) : Except Failure Bytes := do
  let s ← (rewrite uncleanPath).mapError .memory
  -- Calculate and check the length of the cleaned path: an `int`
  let pathLength := (Int32.ofNat s.dst).toInt
  if pathLength ≠ 0 then do
    -- Remove trailing '/' except if it is root path
    let pathLength ← (if 1 < pathLength then do
        let c ← (readByte s.path (pathLength - 1).toNat).mapError .memory
        return if c = slash then pathLength - 1 else pathLength
      else .ok pathLength)
    resize s.path pathLength
  else .ok [dot]

/-! ### The invariant -/

/-- What is written is in front of `dst`, and what is unread is as it was: no write has overtaken the
reads. -/
structure At (n limit : ℕ) (s : Cursors) (pre unread : Bytes) : Prop where
  length : s.path.length = n
  src_le : s.src ≤ n
  dst_le : s.dst ≤ s.src
  written : s.path.take s.dst = pre
  unread : s.path.drop s.src = unread
  limit : s.backtrackLimit = limit
  writes : ∀ w ∈ s.writes, w.1 ≤ w.2

section

variable {n limit : ℕ} {s : Cursors} {pre unread : Bytes}

theorem At.dst_eq (h : At n limit s pre unread) : s.dst = pre.length := by
  have h1 := h.length
  have h2 := h.src_le
  have h3 := h.dst_le
  rw [← h.written, List.length_take]
  omega

/-- **Reading ahead.** -/
theorem At.charAt (h : At n limit s pre unread) {i : ℕ} {c : UInt8}
    (hc : (unread ++ [0])[i]? = some c) : s.charAt i = .ok c := by
  have h1 := h.length
  have h2 := h.src_le
  have hdrop : (s.path ++ [0]).drop s.src = unread ++ [0] := by
    rw [List.drop_append_of_le_length (by omega), h.unread]
  rw [← hdrop, List.getElem?_drop] at hc
  rw [Cursors.charAt, readByte, hc]

theorem At.head (h : At n limit s pre unread) : s.charAt 0 = .ok ((unread ++ [0]).headD 0) := by
  apply h.charAt
  cases unread <;> rfl

theorem At.next {c : UInt8} (h : At n limit s pre (c :: unread)) : At n limit s.next pre unread := by
  have h1 := h.length
  have h3 := h.dst_le
  have h4 := h.unread
  have h5 := congrArg List.length h4
  rw [List.length_drop, List.length_cons] at h5
  refine ⟨h1, ?_, ?_, h.written, ?_, h.limit, h.writes⟩
  · show s.src + 1 ≤ n
    omega
  · show s.dst ≤ s.src + 1
    omega
  · show s.path.drop (s.src + 1) = unread
    rw [← List.drop_drop, h4]
    rfl

/-- **A byte is copied**: it can be read again before `src` goes on. -/
theorem At.put {c : UInt8} (h : At n limit s pre (c :: unread)) :
    ∃ s', s.put = .ok s' ∧ s'.charAt 0 = .ok c ∧ s'.dst = pre.length + 1 ∧
      At n limit s'.next (pre ++ [c]) unread := by
  have h1 := h.length
  have h3 := h.dst_le
  have h4 := h.unread
  have h5 := congrArg List.length h4
  rw [List.length_drop, List.length_cons] at h5
  have hread : s.charAt 0 = .ok c := h.head
  have hget : s.path[s.src]? = some c := by
    have hhead := congrArg List.head? h4
    rwa [List.head?_drop, List.head?_cons] at hhead
  refine ⟨_, by rw [Cursors.put, hread, Access.ok_bind, if_pos (by omega)]; rfl, ?_, ?_, ?_⟩
  · -- the byte stands where it was, written over itself if at all
    have hkept : (s.path.set s.dst c)[s.src]? = some c := by
      rcases h3.lt_or_eq with hlt | heq
      · rw [List.getElem?_set_ne (by omega), hget]
      · rw [← heq, List.getElem?_set_self (by omega)]
    show readByte (s.path.set s.dst c ++ [0]) s.src = .ok c
    rw [readByte, List.getElem?_append_left (by rw [List.length_set]; omega), hkept]
  · show s.dst + 1 = _
    rw [h.dst_eq]
  · refine ⟨by rw [← h1]; exact List.length_set, ?_, ?_, ?_, ?_, h.limit, ?_⟩
    · show s.src + 1 ≤ n
      omega
    · show s.dst + 1 ≤ s.src + 1
      omega
    · show (s.path.set s.dst c).take (s.dst + 1) = _
      rw [List.take_add_one, List.getElem?_set_self (by omega), List.take_set_of_le le_rfl, h.written]
      rfl
    · show (s.path.set s.dst c).drop (s.src + 1) = _
      rw [List.drop_set_of_lt (by omega), ← List.drop_drop, h4]
      rfl
    · intro w hw
      rcases List.mem_append.mp hw with hw | hw
      · exact h.writes w hw
      · rw [List.mem_singleton.mp hw]
        exact h3

/-! ### The small loops -/

/-- A part ends where the text does, or at a separator. -/
def EndsPart (rest : Bytes) : Prop := ∀ c ∈ rest.head?, c = slash

theorem At.skipOne {c : UInt8} (h : At n limit s pre (c :: unread)) (hc : c ≠ 0) :
    s.skipOne = .ok s.next := by
  rw [Cursors.skipOne, h.head, Access.ok_bind]
  exact if_pos hc

theorem At.skipOne_spec (h : At n limit s pre unread) (hends : EndsPart unread) :
    ∃ s', s.skipOne = .ok s' ∧ At n limit s' pre (unread.drop 1) := by
  cases unread with
  | nil =>
    refine ⟨s, ?_, h⟩
    rw [Cursors.skipOne, h.head]
    rfl
  | cons c rest =>
    refine ⟨s.next, h.skipOne ?_, h.next⟩
    rw [hends c rfl]
    decide

theorem At.skipSeparators_spec (h : At n limit s pre unread) {k : ℕ} (hk : unread.length < k) :
    ∃ s', s.skipSeparators k = .ok s' ∧ At n limit s' pre (unread.dropWhile (· = slash)) := by
  induction k generalizing s unread with
  | zero => omega
  | succ k ih =>
    rw [Cursors.skipSeparators, h.head, Access.ok_bind]
    cases unread with
    | nil => exact ⟨s, rfl, h⟩
    | cons c rest =>
      show ∃ s', (if c = slash then _ else _) = _ ∧ _
      by_cases hc : c = slash
      · rw [if_pos hc, List.dropWhile_cons_of_pos (by simpa using hc)]
        exact ih h.next (Nat.lt_of_succ_lt_succ hk)
      · rw [if_neg hc, List.dropWhile_cons_of_neg (by simpa using hc)]
        exact ⟨s, rfl, h⟩

theorem At.copyPart_spec {name rest : Bytes} (h : At n limit s pre (name ++ rest))
    (hname : ∀ c ∈ name, c ≠ 0 ∧ c ≠ slash) (hends : EndsPart rest) {k : ℕ} (hk : name.length < k) :
    ∃ s', s.copyPart k = .ok s' ∧ At n limit s' (pre ++ name) rest := by
  induction k generalizing s pre name with
  | zero => omega
  | succ k ih =>
    rw [Cursors.copyPart, h.head, Access.ok_bind]
    cases name with
    | nil =>
      refine ⟨s, if_neg ?_, by rwa [List.append_nil]⟩
      cases rest with
      | nil => exact fun hno => hno.1 rfl
      | cons c rest => exact fun hno => hno.2 (hends c rfl)
    | cons c name =>
      obtain ⟨hc, hname⟩ := List.forall_mem_cons.mp hname
      obtain ⟨s₁, hput, -, -, h₁⟩ := h.put
      obtain ⟨s', hcopy, h'⟩ := ih h₁ hname (Nat.lt_of_succ_lt_succ hk)
      refine ⟨s', ?_, by rwa [List.append_cons]⟩
      show (if c ≠ 0 ∧ c ≠ slash then _ else _) = _
      rw [if_pos hc, hput, Access.ok_bind, hcopy]

/-- The byte in front of `dst`. -/
theorem before_spec {l : Bytes} {c : UInt8} (hwritten : s.path.take s.dst = l ++ [c])
    (hdst : s.dst ≤ s.path.length) : s.before = .ok c ∧ s.dst = l.length + 1 := by
  have hd := congrArg List.length hwritten
  rw [List.length_take, Nat.min_eq_left hdst, List.length_append, List.length_singleton] at hd
  have hget : (s.path.take s.dst)[l.length]? = some c := by
    rw [hwritten, List.getElem?_append_right le_rfl, Nat.sub_self]
    rfl
  rw [List.getElem?_take_of_lt (by omega)] at hget
  refine ⟨?_, hd⟩
  rw [Cursors.before, hd]
  dsimp only
  rw [readByte, hget]

/-- **Backtracking over a name**: to the limit, or to the separator in front of it. -/
theorem backtrack_spec {base name : Bytes} (hwritten : s.path.take s.dst = base ++ name)
    (hdst : s.dst ≤ s.path.length) (hname : slash ∉ name) (hlimit : s.backtrackLimit ≤ base.length)
    (hbase : base.length = s.backtrackLimit ∨ base.getLast? = some slash) {k : ℕ}
    (hk : name.length < k) : s.backtrack k = .ok { s with dst := base.length } := by
  induction k generalizing s name with
  | zero => omega
  | succ k ih =>
    have hlength := congrArg List.length hwritten
    rw [List.length_take, Nat.min_eq_left hdst, List.length_append] at hlength
    rw [Cursors.backtrack]
    cases name using List.reverseRecOn with
    | nil =>
      rw [List.length_nil, Nat.add_zero] at hlength
      rw [List.append_nil] at hwritten
      split_ifs with hstop
      · rw [← hlength]
      · rcases hbase with hbase | hbase
        · omega
        · obtain ⟨l, rfl⟩ := List.getLast?_eq_some_iff.mp hbase
          rw [(before_spec hwritten hdst).1, Access.ok_bind, if_pos rfl, ← hlength]
          rfl
    | append_singleton name c =>
      rw [List.length_append, List.length_singleton] at hlength hk
      rw [← List.append_assoc] at hwritten
      obtain ⟨hbefore, hd⟩ := before_spec hwritten hdst
      have hc : c ≠ slash := fun heq => hname (by simp [heq])
      have hback : s.back = .ok { s with dst := s.dst - 1 } := if_pos (by omega)
      have htake : s.path.take (s.dst - 1) = base ++ name := by
        have hcut := congrArg (List.take (s.dst - 1)) hwritten
        rwa [List.take_take, Nat.min_eq_left (by omega), List.take_left' (by omega)] at hcut
      rw [if_neg (by omega), hbefore, Access.ok_bind, if_neg hc, hback, Access.ok_bind]
      exact ih (s := { s with dst := s.dst - 1 }) htake (by dsimp only; omega)
        (fun hmem => hname (List.mem_append_left _ hmem)) hlimit hbase (by omega)

end

end LearnNetlib.Path
