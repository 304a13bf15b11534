import LearnNetlib.Base.Coding
import LearnNetlib.Foundations.SortedCursor
import LearnNetlib.Table.Options

/-!
# `BlockBuilder`

`base/io/table/block_builder.cc`: keys are stored without the prefix they share with the key before,
except at restart points.

* `BlockBuilder` — `add`, `finish`, `reset`, `currentSizeEstimate`;
* `Record` — one stored entry, with the length of the shared prefix; `Record.bytes`;
* `BlockShape` — records and restart offsets that belong together, and `blockBytes`, the block they
  make;
* `Builds` — the builder's invariant; `builds_new`, **`add_builds`** and `finish_buffer` say that any
  builder fed increasing keys holds a `BlockShape` and that no assertion fires.
-/

namespace LearnNetlib.Table

open SortedCursor

/-- The length of the longest common prefix: the loop of `BlockBuilder::Add` and of
`FindShortestSeparator`. -/
def sharedLength : Bytes → Bytes → ℕ
  | a :: as, b :: bs => if a = b then sharedLength as bs + 1 else 0
  | _, _ => 0

theorem sharedLength_le_left (as bs : Bytes) : sharedLength as bs ≤ as.length := by
  induction as generalizing bs with
  | nil => simp [sharedLength]
  | cons a as ih =>
    cases bs with
    | nil => simp [sharedLength]
    | cons b bs =>
      have hle := ih bs
      rw [sharedLength, List.length_cons]
      split_ifs <;> omega

theorem sharedLength_le_right (as bs : Bytes) : sharedLength as bs ≤ bs.length := by
  induction as generalizing bs with
  | nil => simp [sharedLength]
  | cons a as ih =>
    cases bs with
    | nil => simp [sharedLength]
    | cons b bs =>
      have hle := ih bs
      rw [sharedLength, List.length_cons]
      split_ifs <;> omega

theorem take_sharedLength (as bs : Bytes) :
    as.take (sharedLength as bs) = bs.take (sharedLength as bs) := by
  induction as generalizing bs with
  | nil => simp [sharedLength]
  | cons a as ih =>
    cases bs with
    | nil => simp [sharedLength]
    | cons b bs =>
      rw [sharedLength]
      split_ifs with h
      · rw [h, List.take_succ_cons, List.take_succ_cons, ih]
      · rfl

/-! ### The code -/

/-- The fields of `BlockBuilder`. -/
structure BlockBuilder where
  options : Options
  buffer : Bytes
  restarts : List UInt32
  counter : ℤ
  finished : Bool
  lastKey : Bytes
  deriving Repr, DecidableEq

namespace BlockBuilder

/-- The constructor. -/
def new (options : Options) : Checked BlockBuilder := do
  check .blockBuilderInterval (options.blockRestartInterval ≥ 1)
  -- First restart point is at offset 0
  return ⟨options, [], [0], 0, false, []⟩

/-- `Reset`. -/
def reset (b : BlockBuilder) : BlockBuilder :=
  { b with buffer := [], restarts := [0], counter := 0, finished := false, lastKey := [] }

/-- `CurrentSizeEstimate`. -/
def currentSizeEstimate (b : BlockBuilder) : ℕ :=
  b.buffer.length + b.restarts.length * 4 + 4

/-- `Finish`; the block is `buffer` afterwards. -/
def finish (b : BlockBuilder) : BlockBuilder :=
  let buffer := b.restarts.foldl putFixed32 b.buffer
  { b with buffer := putFixed32 buffer (UInt32.ofNat b.restarts.length), finished := true }

/-- `empty`. -/
def empty (b : BlockBuilder) : Bool := b.buffer.isEmpty

/-- `Add`. -/
def add (b : BlockBuilder) (key value : Bytes) : Checked BlockBuilder := do
  check .blockBuilderAddFinished (b.finished = false)
  check .blockBuilderAddCounter (b.counter ≤ b.options.blockRestartInterval)
  check .blockBuilderAddOrder (b.buffer = [] ∨ StringPiece.compare key b.lastKey > 0)
  let (shared, restarts, counter) :=
    if b.counter < b.options.blockRestartInterval then
      -- See how much sharing to do with previous string
      (sharedLength b.lastKey key, b.restarts, b.counter)
    else
      -- Restart compression
      (0, b.restarts ++ [UInt32.ofNat b.buffer.length], 0)
  let nonShared := key.length - shared
  -- Add "<shared><non_shared><value_size>" to buffer_
  let buffer := putVarint32 b.buffer (UInt32.ofNat shared)
  let buffer := putVarint32 buffer (UInt32.ofNat nonShared)
  let buffer := putVarint32 buffer (UInt32.ofNat value.length)
  -- Add string delta to buffer_ followed by value
  let buffer := buffer ++ key.drop shared ++ value
  -- Update state
  let lastKey := b.lastKey.take shared ++ key.drop shared
  check .blockBuilderAddLastKey (lastKey = key)
  return { b with buffer, restarts, counter := counter + 1, lastKey }

end BlockBuilder

/-! ### Records -/

/-- One stored entry: how much of its key is shared with the key before, its key, its value. -/
structure Record where
  shared : ℕ
  key : Bytes
  value : Bytes
  deriving Repr, DecidableEq

namespace Record

/-- The three lengths in front of an entry. -/
def header (r : Record) : Bytes :=
  encodeVarint32 (UInt32.ofNat r.shared) ++ encodeVarint32 (UInt32.ofNat (r.key.length - r.shared))
    ++ encodeVarint32 (UInt32.ofNat r.value.length)

def bytes (r : Record) : Bytes := r.header ++ (r.key.drop r.shared ++ r.value)

def entry (r : Record) : Bytes × Bytes := (r.key, r.value)

/-- The shared prefix really is one. -/
structure Follows (prev : Bytes) (r : Record) : Prop where
  le_prev : r.shared ≤ prev.length
  le_key : r.shared ≤ r.key.length
  take_eq : prev.take r.shared = r.key.take r.shared

theorem header_length_ge (r : Record) : 3 ≤ r.header.length := by
  have h1 := encodeVarint32_length_pos (UInt32.ofNat r.shared)
  have h2 := encodeVarint32_length_pos (UInt32.ofNat (r.key.length - r.shared))
  have h3 := encodeVarint32_length_pos (UInt32.ofNat r.value.length)
  rw [header, List.length_append, List.length_append]
  omega

theorem bytes_length (r : Record) :
    r.bytes.length = r.header.length + (r.key.length - r.shared) + r.value.length := by
  rw [bytes, List.length_append, List.length_append, List.length_drop, Nat.add_assoc]

end Record

/-- Records one after the other. -/
def recordsBytes (rs : List Record) : Bytes := rs.flatMap Record.bytes

@[simp] theorem recordsBytes_nil : recordsBytes [] = [] := rfl

theorem recordsBytes_append (as bs : List Record) :
    recordsBytes (as ++ bs) = recordsBytes as ++ recordsBytes bs := List.flatMap_append

theorem recordsBytes_cons (r : Record) (rs : List Record) :
    recordsBytes (r :: rs) = r.bytes ++ recordsBytes rs := List.flatMap_cons

theorem recordsBytes_length_snoc (rs : List Record) (r : Record) :
    (recordsBytes (rs ++ [r])).length = (recordsBytes rs).length + r.bytes.length := by
  rw [recordsBytes_append, recordsBytes_cons, recordsBytes_nil, List.append_nil,
    List.length_append]

theorem recordsBytes_eq_nil {rs : List Record} (h : recordsBytes rs = []) : rs = [] := by
  cases rs with
  | nil => rfl
  | cons r rs =>
    have hlen := congrArg List.length h
    have h3 := r.header_length_ge
    rw [recordsBytes_cons, List.length_append, Record.bytes_length, List.length_nil] at hlen
    omega

/-- The key before the next record. -/
def lastKeyOf (rs : List Record) : Bytes := (rs.getLast?.map Record.key).getD []

@[simp] theorem lastKeyOf_nil : lastKeyOf [] = [] := rfl

@[simp] theorem lastKeyOf_snoc (rs : List Record) (r : Record) : lastKeyOf (rs ++ [r]) = r.key := by
  simp [lastKeyOf]

/-- A record that stands at `offset` and shares nothing. -/
def RestartAt (rs : List Record) (offset : ℕ) : Prop :=
  ∃ pre r post, rs = pre ++ r :: post ∧ r.shared = 0 ∧ (recordsBytes pre).length = offset

/-- **Records and restart offsets that make a block.** -/
structure BlockShape (rs : List Record) (points : List ℕ) : Prop where
  follows : ∀ pre r post, rs = pre ++ r :: post → r.Follows (lastKeyOf pre)
  sorted : Sorted (rs.map Record.entry)
  head : points.head? = some 0
  increasing : points.Pairwise (· < ·)
  restart : rs ≠ [] → ∀ p ∈ points, RestartAt rs p
  single : rs = [] → points = [0]

/-- The bytes of a block. -/
def blockBytes (rs : List Record) (points : List ℕ) : Bytes :=
  recordsBytes rs ++ (points.map UInt32.ofNat).flatMap encodeFixed32
    ++ encodeFixed32 (UInt32.ofNat points.length)

theorem foldl_putFixed32 (restarts : List UInt32) (buffer : Bytes) :
    restarts.foldl putFixed32 buffer = buffer ++ restarts.flatMap encodeFixed32 := by
  induction restarts generalizing buffer with
  | nil => simp
  | cons v restarts ih => rw [List.foldl_cons, ih, putFixed32, List.flatMap_cons, List.append_assoc]

theorem blockShape_nil : BlockShape [] [0] where
  follows pre r post h := by simp at h
  sorted := List.Pairwise.nil
  head := rfl
  increasing := List.pairwise_singleton _ _
  restart h := absurd rfl h
  single _ := rfl

/-- Restart offsets lie in front of the end. -/
theorem RestartAt.lt {rs : List Record} {p : ℕ} (h : RestartAt rs p) :
    p < (recordsBytes rs).length := by
  obtain ⟨pre, r, post, rfl, -, rfl⟩ := h
  have h3 := r.header_length_ge
  rw [recordsBytes_append, recordsBytes_cons, List.length_append, List.length_append,
    Record.bytes_length]
  omega

theorem RestartAt.snoc {rs : List Record} {p : ℕ} (h : RestartAt rs p) (r : Record) :
    RestartAt (rs ++ [r]) p := by
  obtain ⟨pre, r', post, rfl, hshared, hp⟩ := h
  exact ⟨pre, r', post ++ [r], by simp, hshared, hp⟩

/-! ### The invariant -/

/-- The builder holds the block of `rs` and `points`, not yet finished. -/
structure Builds (b : BlockBuilder) (rs : List Record) (points : List ℕ) : Prop where
  shape : BlockShape rs points
  buffer : b.buffer = recordsBytes rs
  restarts : b.restarts = points.map UInt32.ofNat
  lastKey : b.lastKey = lastKeyOf rs
  finished : b.finished = false
  interval : 1 ≤ b.options.blockRestartInterval
  counter_le : b.counter ≤ b.options.blockRestartInterval
  counter_nil : rs = [] → b.counter = 0

/-- A new or reset builder is empty. -/
theorem builds_reset {b : BlockBuilder} (h : 1 ≤ b.options.blockRestartInterval) :
    Builds b.reset [] [0] where
  shape := blockShape_nil
  buffer := rfl
  restarts := rfl
  lastKey := rfl
  finished := rfl
  interval := h
  counter_le := by
    change 0 ≤ b.options.blockRestartInterval
    omega
  counter_nil _ := rfl

theorem builds_new {options : Options} (h : 1 ≤ options.blockRestartInterval) :
    ∃ b, BlockBuilder.new options = .ok b ∧ b.options = options ∧ Builds b [] [0] := by
  refine ⟨⟨options, [], [0], 0, false, []⟩, ?_, rfl, builds_reset (b := ⟨options, [], [0], 0, false, []⟩) h⟩
  rw [BlockBuilder.new, check_of h]
  rfl

/-- Both ways to add a record keep the shape. -/
theorem BlockShape.snoc {rs : List Record} {points : List ℕ} (h : BlockShape rs points) {r : Record}
    (hfollows : r.Follows (lastKeyOf rs)) (hkey : ∀ x ∈ rs, x.key < r.key) :
    ((rs = [] → r.shared = 0) → BlockShape (rs ++ [r]) points) ∧
      (rs ≠ [] → r.shared = 0 →
        BlockShape (rs ++ [r]) (points ++ [(recordsBytes rs).length])) := by
  have hall : ∀ pre r' post, rs ++ [r] = pre ++ r' :: post → r'.Follows (lastKeyOf pre) := by
    intro pre r' post heq
    rcases List.eq_nil_or_concat post with rfl | ⟨post, x, rfl⟩
    · obtain ⟨rfl, rfl⟩ := List.append_singleton_inj.mp heq
      exact hfollows
    · rw [List.concat_eq_append, ← List.cons_append, ← List.append_assoc] at heq
      obtain ⟨rfl, rfl⟩ := List.append_singleton_inj.mp heq
      exact h.follows pre r' post rfl
  have hsorted : Sorted ((rs ++ [r]).map Record.entry) := by
    rw [List.map_append, sorted_append_iff]
    refine ⟨h.sorted, List.pairwise_singleton _ _, ?_⟩
    intro a ha b hb
    obtain ⟨x, hx, rfl⟩ := List.mem_map.mp ha
    simp only [List.map_cons, List.map_nil, List.mem_singleton] at hb
    subst hb
    exact hkey x hx
  constructor
  · intro hfirst
    refine ⟨hall, hsorted, h.head, h.increasing, fun _ p hp => ?_, by simp⟩
    rcases eq_or_ne rs [] with rfl | hne
    · rw [h.single rfl, List.mem_singleton] at hp
      subst hp
      exact ⟨[], r, [], rfl, hfirst rfl, rfl⟩
    · exact (h.restart hne p hp).snoc r
  · intro hne hshared
    refine ⟨hall, hsorted, ?_, ?_, fun _ p hp => ?_, by simp⟩
    · rw [List.head?_append, h.head]
      rfl
    · rw [List.pairwise_append]
      refine ⟨h.increasing, List.pairwise_singleton _ _, ?_⟩
      intro p hp q hq
      rw [List.mem_singleton.mp hq]
      exact (h.restart hne p hp).lt
    · rcases List.mem_append.mp hp with hp | hp
      · exact (h.restart hne p hp).snoc r
      · rw [List.mem_singleton.mp hp]
        exact ⟨rs, r, [], rfl, hshared, rfl⟩

/-- The last key is the largest. -/
theorem BlockShape.lt_of_lastKey_lt {rs : List Record} {points : List ℕ} (h : BlockShape rs points)
    {key : Bytes} (hkey : rs ≠ [] → lastKeyOf rs < key) : ∀ x ∈ rs, x.key < key := by
  intro x hx
  rcases List.eq_nil_or_concat rs with rfl | ⟨rs, r, rfl⟩
  · simp at hx
  · rw [List.concat_eq_append] at h hkey hx
    have hlast := hkey (by simp)
    rw [lastKeyOf_snoc] at hlast
    rcases List.mem_append.mp hx with hx | hx
    · have hs := h.sorted
      rw [List.map_append, sorted_append_iff] at hs
      exact (hs.2.2 _ (List.mem_map_of_mem hx) r.entry (by simp)).trans hlast
    · rw [List.mem_singleton.mp hx]
      exact hlast

/-- **Adding a larger key**: no assertion fires, and one record is appended. -/
theorem add_builds {b : BlockBuilder} {rs : List Record} {points : List ℕ} (h : Builds b rs points)
    {key : Bytes} (value : Bytes) (hkey : rs ≠ [] → lastKeyOf rs < key) :
    ∃ b' shared points', b.add key value = .ok b' ∧ b'.options = b.options ∧
      Builds b' (rs ++ [⟨shared, key, value⟩]) points' := by
  have hlt := h.shape.lt_of_lastKey_lt hkey
  have hcheck : b.buffer = [] ∨ StringPiece.compare key b.lastKey > 0 := by
    rw [h.buffer, h.lastKey]
    rcases eq_or_ne rs [] with rfl | hne
    · exact .inl rfl
    · exact .inr ((StringPiece.compare_pos_iff _ _).mpr (hkey hne))
  rw [BlockBuilder.add, check_of h.finished, check_of h.counter_le, check_of hcheck]
  simp only [Checked.ok_bind]
  by_cases hcounter : b.counter < b.options.blockRestartInterval
  · -- sharing
    have hfollows : Record.Follows (lastKeyOf rs) ⟨sharedLength b.lastKey key, key, value⟩ := by
      rw [← h.lastKey]
      exact ⟨sharedLength_le_left _ _, sharedLength_le_right _ _, take_sharedLength _ _⟩
    have hlast : b.lastKey.take (sharedLength b.lastKey key) ++ key.drop (sharedLength b.lastKey key)
        = key := by
      rw [take_sharedLength, List.take_append_drop]
    have hshape := (h.shape.snoc hfollows hlt).1 (by
      rintro rfl
      simp [h.lastKey, sharedLength])
    simp only [hcounter, if_true, hlast, check_of, Checked.ok_bind, Checked.pure_eq]
    refine ⟨_, sharedLength b.lastKey key, points, rfl, rfl, hshape, ?_, h.restarts, ?_,
      h.finished, h.interval, ?_, by simp⟩
    · simp [putVarint32, h.buffer, recordsBytes_append, recordsBytes_cons, Record.bytes,
        Record.header, List.append_assoc]
    · simp
    · dsimp only
      omega
  · -- a restart point
    have hne : rs ≠ [] := by
      rintro rfl
      have h0 := h.counter_nil rfl
      have h1 := h.interval
      omega
    have hfollows : Record.Follows (lastKeyOf rs) ⟨0, key, value⟩ :=
      ⟨Nat.zero_le _, Nat.zero_le _, rfl⟩
    have hshape := (h.shape.snoc hfollows hlt).2 hne rfl
    simp only [hcounter, if_false, List.take_zero, List.drop_zero, List.nil_append, check_of,
      Checked.ok_bind, Checked.pure_eq]
    refine ⟨_, 0, points ++ [(recordsBytes rs).length], rfl, rfl, hshape, ?_, ?_, ?_,
      h.finished, h.interval, ?_, by simp⟩
    · simp [putVarint32, h.buffer, recordsBytes_append, recordsBytes_cons, Record.bytes,
        Record.header, List.append_assoc]
    · simp [h.restarts, h.buffer]
    · simp
    · have := h.interval
      dsimp only
      omega

/-- **Finishing** lays out the block. -/
theorem finish_buffer {b : BlockBuilder} {rs : List Record} {points : List ℕ}
    (h : Builds b rs points) : b.finish.buffer = blockBytes rs points := by
  simp only [BlockBuilder.finish, foldl_putFixed32, putFixed32, h.buffer, h.restarts, blockBytes,
    List.length_map]

theorem empty_iff {b : BlockBuilder} {rs : List Record} {points : List ℕ} (h : Builds b rs points) :
    b.empty = true ↔ rs = [] := by
  rw [BlockBuilder.empty, List.isEmpty_iff, h.buffer]
  exact ⟨recordsBytes_eq_nil, fun hrs => by rw [hrs, recordsBytes_nil]⟩

/-! ### Whole lists -/

/-- `Add`, one entry after the other. -/
def BlockBuilder.addAll (b : BlockBuilder) (es : List (Bytes × Bytes)) : Checked BlockBuilder :=
  es.foldlM (fun b e => b.add e.1 e.2) b

/-- **Increasing keys**: no assertion fires, and the builder holds the entries. -/
theorem addAll_builds {b : BlockBuilder} {rs : List Record} {points : List ℕ} (h : Builds b rs points)
    {es : List (Bytes × Bytes)} (hsorted : Sorted (rs.map Record.entry ++ es)) :
    ∃ b' rs' points', b.addAll es = .ok b' ∧ Builds b' rs' points' ∧
      rs'.map Record.entry = rs.map Record.entry ++ es := by
  induction es generalizing b rs points with
  | nil => exact ⟨b, rs, points, rfl, h, by rw [List.append_nil]⟩
  | cons e es ih =>
    have hkey : rs ≠ [] → lastKeyOf rs < e.1 := by
      intro hne
      obtain ⟨rs, r, rfl⟩ := (List.eq_nil_or_concat rs).resolve_left hne
      rw [List.concat_eq_append] at hsorted ⊢
      rw [lastKeyOf_snoc]
      exact (sorted_append_iff.mp hsorted).2.2 r.entry (by simp) e List.mem_cons_self
    obtain ⟨b₁, shared, points₁, hadd, -, hbuilds⟩ := add_builds h e.2 hkey
    have hentries : (rs ++ [(⟨shared, e.1, e.2⟩ : Record)]).map Record.entry
        = rs.map Record.entry ++ [e] := by
      rw [List.map_append]
      rfl
    obtain ⟨b', rs', points', hall, hbuilds', hrs'⟩ := ih hbuilds (by
      rw [hentries, List.append_assoc]
      exact hsorted)
    refine ⟨b', rs', points', ?_, hbuilds', ?_⟩
    · rw [BlockBuilder.addAll, List.foldlM_cons, hadd]
      exact hall
    · rw [hrs', hentries, List.append_assoc]
      rfl

theorem foldl_putFixed32_length (restarts : List UInt32) (buffer : Bytes) :
    (restarts.foldl putFixed32 buffer).length = buffer.length + restarts.length * 4 := by
  induction restarts generalizing buffer with
  | nil => simp
  | cons v restarts ih =>
    rw [List.foldl_cons, ih, putFixed32, List.length_append, encodeFixed32_length, List.length_cons]
    omega

/-- **The estimate is the size of the block**, whatever has been added. -/
theorem BlockBuilder.finish_length (b : BlockBuilder) :
    b.finish.buffer.length = b.currentSizeEstimate := by
  rw [finish, currentSizeEstimate]
  dsimp only
  rw [putFixed32, List.length_append, foldl_putFixed32_length, encodeFixed32_length]

end LearnNetlib.Table
