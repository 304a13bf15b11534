import LearnNetlib.Io.CleanPath
import LearnNetlib.Platform.FileSystem
import Mathlib.Data.List.DropRight

/-!
# `GetMatchingPaths`

`MatchPath` is a parameter: nothing below depends on what it accepts.

* `getMatchingPaths` — the code;
* `HasEntry`, **`exists_hasEntry_iff`** — the paths that the walk collects are those of all entries;
* `pathOf_eq`, `stem_searchRoot_iff` — how they are spelled: behind the search root and a separator, which
  is the directory part of the pattern unless there is none, or it ends in two separators;
* **`getMatchingPaths_iff`** — the paths that match are returned if the spellings agree, or none matches.
-/

namespace LearnNetlib

open LearnNetlib.Path BreadthFirst

/-! ### The code -/

/-- `"*?[\\"`. -/
def wildcards : Bytes := ['*'.toUInt8, '?'.toUInt8, '['.toUInt8, '\\'.toUInt8]

/-- `fixed_prefix`. -/
def fixedPrefix (pattern : Bytes) : Bytes := pattern.takeWhile fun c => c ∉ wildcards

/-- `dir`. -/
def searchRoot (pattern : Bytes) : Bytes :=
  if dirname (fixedPrefix pattern) = [] then [dot] else dirname (fixedPrefix pattern)

/-- The variables of the walk. -/
structure Matching where
  dirQ : List Bytes
  allFiles : List Bytes
  ret : Status
  deriving Repr, DecidableEq

/-- A turn of the loop over `children`. -/
def matchChild (fs : FileSystem) (currentDir : Bytes) (m : Matching) (child : Bytes) : Matching :=
  let childPath := joinPathImpl [currentDir, child]
  -- If the child is a directory add it to the queue.
  { m with
    dirQ := if (fs.isDirectory childPath).isOk then m.dirQ ++ [childPath] else m.dirQ
    allFiles := m.allFiles ++ [childPath] }

/-- A turn of the loop over `dir_q`. -/
def matchingTurn (fs : FileSystem) (m : Matching) : Access (Matching ⊕ Matching) :=
  match m.dirQ with
  | [] => .ok (.inr m)
  | currentDir :: dirQ =>
    let res := fs.getChildren currentDir
    .ok (.inl (res.2.foldl (matchChild fs currentDir) { m with dirQ, ret := m.ret.update res.1 }))

/-- `GetMatchingPaths`, if its loop ends after fewer than `fuel` turns. -/
def getMatchingPaths (matchPath : Bytes → Bytes → Bool) (fs : FileSystem) (fuel : ℕ) (pattern : Bytes) :
    Access (Status × List Bytes) := do
  let m ← Loops.loop .stillRunning (matchingTurn fs) fuel ⟨[searchRoot pattern], [], .ok⟩
  -- Match all obtained files to the input pattern.
  return (m.ret, m.allFiles.filter fun f => matchPath f pattern)

/-! ### The walk -/

/-- What `GetChildren` puts into `children`. -/
def FileSystem.children (fs : FileSystem) (dir : Bytes) : List Bytes := (fs.getChildren dir).2

variable {fs : FileSystem} {matchPath : Bytes → Bytes → Bool} {pattern : Bytes} {order : List Bytes}

theorem foldl_matchChild (currentDir : Bytes) (children : List Bytes) (m : Matching) :
    children.foldl (matchChild fs currentDir) m
      = { m with
          dirQ := m.dirQ ++ (children.map fun child => joinPathImpl [currentDir, child]).filter fs.isDir
          allFiles := m.allFiles ++ children.map fun child => joinPathImpl [currentDir, child] } := by
  induction children generalizing m with
  | nil => simp
  | cons child children ih =>
    rw [List.foldl_cons, ih, matchChild, List.map_cons]
    by_cases hdir : (fs.isDirectory (joinPathImpl [currentDir, child])).isOk = true
    · rw [List.filter_cons_of_pos (show fs.isDir _ = true from hdir)]
      simp [hdir]
    · rw [List.filter_cons_of_neg (show ¬ fs.isDir _ = true from hdir)]
      simp [hdir]

/-- **A run** collects the entries of all directories of the walk. -/
theorem getMatchingPaths_eq
    (hwalk : Walk (subdirectories fs.isDir fs.children) [searchRoot pattern] order) :
    getMatchingPaths matchPath fs (order.length + 1) pattern
      = .ok (.firstError (order.map fun dir => (fs.getChildren dir).1),
          (order.flatMap (childPaths fs.children)).filter fun f => matchPath f pattern) := by
  let state : List Bytes → List Bytes × Status → Matching := fun q b => ⟨q, b.1, b.2⟩
  let visit : List Bytes × Status → Bytes → List Bytes × Status :=
    fun b dir => (b.1 ++ childPaths fs.children dir, b.2.update (fs.getChildren dir).1)
  have hturn : ∀ dir rest b, matchingTurn fs (state (dir :: rest) b)
      = .ok (.inl (state (rest ++ subdirectories fs.isDir fs.children dir) (visit b dir))) := by
    intro dir rest b
    exact congrArg (fun m => Except.ok (Sum.inl m)) (foldl_matchChild dir _ _)
  have hfold : ∀ (order : List Bytes) (b : List Bytes × Status),
      order.foldl visit b = (b.1 ++ order.flatMap (childPaths fs.children),
        (order.map fun dir => (fs.getChildren dir).1).foldl Status.update b.2) := by
    intro order
    induction order with
    | nil => intro b; simp
    | cons dir order ih => intro b; simp [ih, visit]
  have hloop : Loops.loop Stop.stillRunning (matchingTurn fs) (order.length + 1)
      (state [searchRoot pattern] ([], .ok)) = .ok (state [] (order.foldl visit ([], .ok))) :=
    loop_walk state visit (fun _ => rfl) hturn hwalk _
  rw [hfold, Status.foldl_update] at hloop
  rw [getMatchingPaths]
  show (Loops.loop .stillRunning (matchingTurn fs) _ (state [searchRoot pattern] ([], .ok)) >>= _) = _
  rw [hloop]
  rfl

/-- Runs that end end alike. -/
theorem getMatchingPaths_unique {fuel fuel' : ℕ} {r r' : Status × List Bytes}
    (h : getMatchingPaths matchPath fs fuel pattern = .ok r)
    (h' : getMatchingPaths matchPath fs fuel' pattern = .ok r') : r = r' := by
  obtain ⟨m, hloop, hrest⟩ := Access.bind_eq_ok.mp h
  obtain ⟨m', hloop', hrest'⟩ := Access.bind_eq_ok.mp h'
  obtain rfl := Loops.loop_unique hloop hloop'
  exact Except.ok.inj (hrest.symm.trans hrest')

/-! ### Entries -/

/-- There is an entry below `dir` under these names, one for each directory on the way and the last for
the entry itself. -/
def HasEntry (fs : FileSystem) (dir : Bytes) : List Bytes → Prop
  | [] => False
  | [name] => name ∈ fs.children dir
  | name :: names => name ∈ fs.children dir ∧ fs.isDirectory (joinPathImpl [dir, name]) = .ok ∧
      HasEntry fs (joinPathImpl [dir, name]) names

/-- The path that `JoinPath` makes of them. -/
def pathOf (dir : Bytes) (names : List Bytes) : Bytes :=
  names.foldl (fun path name => joinPathImpl [path, name]) dir

theorem isDir_iff {p : Bytes} : fs.isDir p = true ↔ fs.isDirectory p = .ok := Status.isOk_iff _

/-- **The paths of the entries** are those of the children of all directories that are discovered. -/
theorem exists_hasEntry_iff (dir p : Bytes) :
    (∃ names, HasEntry fs dir names ∧ p = pathOf dir names) ↔
      ∃ d, Discovered fs.isDir fs.children dir d ∧ p ∈ childPaths fs.children d := by
  constructor
  · rintro ⟨names, hentry, rfl⟩
    induction names generalizing dir with
    | nil => exact hentry.elim
    | cons name names ih =>
      cases names with
      | nil => exact ⟨dir, .refl, mem_childPaths.mpr ⟨name, hentry, rfl⟩⟩
      | cons name' names =>
        obtain ⟨hname, hdir, hrest⟩ := hentry
        obtain ⟨d, hd, hp⟩ := ih _ hrest
        have hchild : joinPathImpl [dir, name] ∈ subdirectories fs.isDir fs.children dir :=
          mem_subdirectories.mpr ⟨mem_childPaths.mpr ⟨name, hname, rfl⟩, isDir_iff.mpr hdir⟩
        exact ⟨d, below_iff.mpr (.inr ⟨_, hchild, hd⟩), hp⟩
  · rintro ⟨d, hd, hp⟩
    obtain ⟨name, hname, rfl⟩ := mem_childPaths.mp hp
    induction hd using Relation.ReflTransGen.head_induction_on with
    | refl => exact ⟨[name], hname, rfl⟩
    | @head dir sub hstep _ ih =>
      obtain ⟨hsub, hdir⟩ := mem_subdirectories.mp hstep
      obtain ⟨name', hname', rfl⟩ := mem_childPaths.mp hsub
      obtain ⟨names, hentry, hpath⟩ := ih
      refine ⟨name' :: names, ?_, hpath⟩
      cases names with
      | nil => exact hentry.elim
      | cons name'' names => exact ⟨hname', isDir_iff.mp hdir, hentry⟩

/-- Names of entries are proper names. -/
theorem HasEntry.proper {root : Bytes} (htree : DirectoryTree fs.isDir fs.children root) {dir : Bytes}
    (hdir : Discovered fs.isDir fs.children root dir) {names : List Bytes} (h : HasEntry fs dir names) :
    names ≠ [] ∧ ∀ name ∈ names, (name ≠ [] ∧ slash ∉ name) ∧
      ∃ d, Discovered fs.isDir fs.children root d ∧ name ∈ fs.children d := by
  induction names generalizing dir with
  | nil => exact h.elim
  | cons name names ih =>
    refine ⟨List.cons_ne_nil _ _, ?_⟩
    cases names with
    | nil =>
      intro n hn
      obtain rfl := List.mem_singleton.mp hn
      exact ⟨htree.proper dir hdir n h, dir, hdir, h⟩
    | cons name' names =>
      obtain ⟨hname, hsub, hrest⟩ := h
      have hchild : joinPathImpl [dir, name] ∈ subdirectories fs.isDir fs.children dir :=
        mem_subdirectories.mpr ⟨mem_childPaths.mpr ⟨name, hname, rfl⟩, isDir_iff.mpr hsub⟩
      rw [List.forall_mem_cons]
      exact ⟨⟨htree.proper dir hdir name hname, dir, hdir, hname⟩, (ih (hdir.tail hchild) hrest).2⟩

/-! ### Spellings -/

/-- The directory part of a pattern: the fixed prefix up to its last separator. -/
def base (pattern : Bytes) : Bytes := (fixedPrefix pattern).rdropWhile fun c => c ≠ slash

/-- **How the code spells an entry.** -/
theorem pathOf_eq {dir : Bytes} {names : List Bytes} (hne : names ≠ [])
    (hnames : ∀ name ∈ names, name ≠ [] ∧ slash ∉ name) :
    pathOf dir names = stem dir ++ [slash].intercalate names := by
  induction names generalizing dir with
  | nil => exact absurd rfl hne
  | cons name names ih =>
    obtain ⟨hname, hrest⟩ := List.forall_mem_cons.mp hnames
    have hjoin := joinPathImpl_stem dir hname.2 hname.1
    cases names with
    | nil =>
      rw [List.intercalate_singleton]
      exact hjoin
    | cons name' names =>
      have hstep : pathOf dir (name :: name' :: names)
          = pathOf (joinPathImpl [dir, name]) (name' :: names) := rfl
      rw [hstep, ih (List.cons_ne_nil _ _) hrest, hjoin, stem_append_name hname.2 hname.1,
        List.intercalate_cons_cons]
      simp only [List.append_assoc]

/-- The search root is `.`, or what is in front of the separator that ends the directory part. -/
theorem base_cases (pattern : Bytes) :
    (base pattern = [] ∧ searchRoot pattern = [dot]) ∨
      ∃ pre, base pattern = pre ++ [slash] ∧ searchRoot pattern = if pre = [] then [slash] else pre := by
  rcases path_cases (fixedPrefix pattern) with h | ⟨pre, name, hfixed, hname⟩
  · refine .inl ⟨List.rdropWhile_eq_nil_iff.mpr fun c hc => ?_, ?_⟩
    · refine decide_eq_true ?_
      rintro rfl
      exact h hc
    · rw [searchRoot, dirname_of_notMem h, if_pos rfl]
  · refine .inr ⟨pre, ?_, ?_⟩
    · have hdrop : name.reverse.dropWhile (fun c => decide (c ≠ slash)) = [] := by
        rw [List.dropWhile_eq_nil_iff]
        intro c hc
        refine decide_eq_true ?_
        rintro rfl
        exact hname (List.mem_reverse.mp hc)
      rw [base, hfixed, List.rdropWhile, List.reverse_append, List.reverse_cons, List.append_assoc,
        List.dropWhile_append, hdrop]
      simp
    · have hne : (if pre = [] then [slash] else pre) ≠ [] := by
        split_ifs with hnil
        · exact List.cons_ne_nil _ _
        · exact hnil
      rw [searchRoot, hfixed, dirname_append hname, if_neg hne]

/-- The pattern has a directory part, which does not end in two separators. -/
def Straight (pattern : Bytes) : Prop := base pattern ≠ [] ∧ ¬ [slash, slash] <:+ base pattern

/-- **The spellings agree** for straight patterns, and for no others. -/
theorem stem_searchRoot_iff (pattern : Bytes) : stem (searchRoot pattern) = base pattern ↔ Straight pattern := by
  rcases base_cases pattern with ⟨hbase, hroot⟩ | ⟨pre, hbase, hroot⟩
  · rw [hbase, hroot, Straight, hbase]
    exact ⟨fun h => absurd h (by decide), fun h => absurd rfl h.1⟩
  · have hsuffix : [slash, slash] <:+ pre ++ [slash] ↔ pre.getLast? = some slash := by
      rw [List.getLast?_eq_some_iff]
      constructor
      · rintro ⟨t, ht⟩
        have hsplit : pre ++ [slash] = t ++ [slash] ++ [slash] := by
          rw [← ht, List.append_assoc]
          rfl
        exact ⟨t, List.append_cancel_right hsplit⟩
      · rintro ⟨t, rfl⟩
        exact ⟨t, by rw [List.append_assoc]; rfl⟩
    rw [Straight, hbase, hsuffix, hroot]
    by_cases hnil : pre = []
    · subst hnil
      simp [stem]
    · rw [if_neg hnil, stem]
      split_ifs with h
      · rcases h with h | h
        · exact absurd h hnil
        · refine ⟨fun heq => ?_, fun hstraight => absurd h hstraight.2⟩
          have hlength := congrArg List.length heq
          rw [List.length_append, List.length_singleton] at hlength
          omega
      · exact ⟨fun _ => ⟨by simp, (not_or.mp h).2⟩, fun _ => rfl⟩

/-- The first name of a joined path. -/
theorem takeWhile_intercalate {name : Bytes} (hname : slash ∉ name) (names : List Bytes) :
    ([slash].intercalate (name :: names)).takeWhile (fun c => c ≠ slash) = name := by
  have hall : ∀ c ∈ name, decide (c ≠ slash) = true := by
    intro c hc
    refine decide_eq_true ?_
    rintro rfl
    exact hname hc
  cases names with
  | nil =>
    rw [List.intercalate_singleton]
    exact List.takeWhile_eq_self_iff.mpr hall
  | cons name' names =>
    rw [List.intercalate_cons_cons, List.append_assoc, List.takeWhile_append_of_pos hall,
      List.singleton_append, List.takeWhile_cons_of_neg (by simp), List.append_nil]

/-! ### What is returned -/

/-- A path that the walk collects. -/
def Collected (fs : FileSystem) (pattern p : Bytes) : Prop :=
  ∃ names, HasEntry fs (searchRoot pattern) names ∧ p = pathOf (searchRoot pattern) names

/-- An existing path spelled relative to the base of the pattern: its directory part and the names of an
entry below the search root, or the search root itself if it is spelled so. -/
def ExistingPath (fs : FileSystem) (pattern p : Bytes) : Prop :=
  (∃ names, HasEntry fs (searchRoot pattern) names ∧ p = base pattern ++ [slash].intercalate names) ∨
    (p = searchRoot pattern ∧ base pattern <+: p)

/-- What `GetMatchingPaths` is for: it returns the existing paths that match, each once. -/
def ReturnsMatches (matchPath : Bytes → Bytes → Bool) (fs : FileSystem) (pattern : Bytes) : Prop :=
  ∃ fuel results, getMatchingPaths matchPath fs fuel pattern = .ok (.ok, results) ∧ results.Nodup ∧
    ∀ p, p ∈ results ↔ ExistingPath fs pattern p ∧ matchPath p pattern = true

/-- Along a walk the function does what it is for if the paths that match are collected exactly if they
exist. -/
theorem returnsMatches_iff (htree : DirectoryTree fs.isDir fs.children (searchRoot pattern))
    (hlisted : ∀ dir, Discovered fs.isDir fs.children (searchRoot pattern) dir → (fs.getChildren dir).1 = .ok) :
    ReturnsMatches matchPath fs pattern ↔
      ∀ p, matchPath p pattern = true → (Collected fs pattern p ↔ ExistingPath fs pattern p) := by
  obtain ⟨order, hwalk⟩ := exists_walk_root htree
  have hok : Status.firstError (order.map fun dir => (fs.getChildren dir).1) = .ok := by
    rw [Status.firstError_eq_ok_iff, List.forall_mem_map]
    exact fun dir hdir => hlisted dir ((mem_walk_root hwalk dir).mp hdir)
  have hrun : getMatchingPaths matchPath fs (order.length + 1) pattern = .ok (_, _) := getMatchingPaths_eq hwalk
  rw [hok] at hrun
  have hmem : ∀ p, p ∈ (order.flatMap (childPaths fs.children)).filter (fun f => matchPath f pattern) ↔
      Collected fs pattern p ∧ matchPath p pattern = true := by
    intro p
    rw [List.mem_filter, List.mem_flatMap, Collected, exists_hasEntry_iff]
    exact and_congr_left fun _ => exists_congr fun d => and_congr_left fun _ => mem_walk_root hwalk d
  constructor
  · rintro ⟨fuel, results, hrun', -, hresults⟩ p hp
    obtain rfl := congrArg Prod.snd (getMatchingPaths_unique hrun hrun')
    have hboth := (hmem p).symm.trans (hresults p)
    rwa [hp, and_iff_left rfl, and_iff_left rfl] at hboth
  · intro hagree
    refine ⟨_, _, hrun, (nodup_flatMap_childPaths htree hwalk).filter _, fun p => ?_⟩
    rw [hmem]
    exact and_congr_left fun hp => hagree p hp

section Spelling

variable (htree : DirectoryTree fs.isDir fs.children (searchRoot pattern))

include htree

theorem collected_iff (p : Bytes) : Collected fs pattern p ↔
    ∃ names, HasEntry fs (searchRoot pattern) names ∧
      p = stem (searchRoot pattern) ++ [slash].intercalate names := by
  refine exists_congr fun names => and_congr_right fun hentry => ?_
  obtain ⟨hne, hnames⟩ := hentry.proper htree .refl
  rw [pathOf_eq hne fun name hname => (hnames name hname).1]

/-- The search root is not among its entries. -/
theorem not_collected_searchRoot : ¬ Collected fs pattern (searchRoot pattern) := by
  rw [collected_iff htree]
  rintro ⟨names, hentry, hroot⟩
  obtain ⟨hne, hnames⟩ := hentry.proper htree .refl
  obtain ⟨name, names, rfl⟩ := List.exists_cons_of_ne_nil hne
  obtain ⟨⟨hname, hslash⟩, -⟩ := hnames name List.mem_cons_self
  have hlength := congrArg List.length hroot
  have hstem : (searchRoot pattern).length ≤ (stem (searchRoot pattern)).length := by
    rw [stem]
    split_ifs
    · exact Nat.le_refl _
    · rw [List.length_append]
      exact Nat.le_add_right _ _
  have hnil : [slash].intercalate (name :: names) = [] := by
    rw [List.length_append] at hlength
    exact List.eq_nil_of_length_eq_zero (by omega)
  have hfirst := takeWhile_intercalate hslash names
  rw [hnil] at hfirst
  exact hname hfirst.symm

/-- For a straight pattern what exists is collected, but for the root. -/
theorem existingPath_iff_of_straight (hstraight : Straight pattern) (p : Bytes) :
    ExistingPath fs pattern p ↔ Collected fs pattern p ∨ (p = [slash] ∧ base pattern = [slash]) := by
  have hstem := (stem_searchRoot_iff pattern).mpr hstraight
  rw [ExistingPath, ← hstem, ← collected_iff htree, hstem]
  refine or_congr_right ?_
  rcases base_cases pattern with ⟨hbase, -⟩ | ⟨pre, hbase, hroot⟩
  · exact absurd hbase hstraight.1
  · rw [hbase, hroot]
    by_cases hnil : pre = []
    · subst hnil
      rw [if_pos rfl, List.nil_append]
      exact ⟨fun h => ⟨h.1, rfl⟩, fun h => ⟨h.1, h.1 ▸ List.prefix_rfl⟩⟩
    · rw [if_neg hnil]
      constructor
      · rintro ⟨rfl, hpre⟩
        have hlength := hpre.length_le
        rw [List.length_append, List.length_singleton] at hlength
        omega
      · rintro ⟨-, heq⟩
        exact absurd (List.append_left_eq_self.mp heq) hnil

/-- For another pattern nothing that is collected is spelled as it should be. -/
theorem not_existingPath_of_collected
    (hdot : ∀ dir, Discovered fs.isDir fs.children (searchRoot pattern) dir → [dot] ∉ fs.children dir)
    (hstraight : ¬ Straight pattern) {p : Bytes} (hcollected : Collected fs pattern p) :
    ¬ ExistingPath fs pattern p := by
  rintro (⟨names', hentry', hp'⟩ | ⟨rfl, -⟩)
  · obtain ⟨names, hentry, hp⟩ := (collected_iff htree p).mp hcollected
    obtain ⟨hne, hnames⟩ := hentry.proper htree .refl
    obtain ⟨hne', hnames'⟩ := hentry'.proper htree .refl
    obtain ⟨name, names, rfl⟩ := List.exists_cons_of_ne_nil hne
    obtain ⟨name', names', rfl⟩ := List.exists_cons_of_ne_nil hne'
    obtain ⟨⟨hname, hslash⟩, -⟩ := hnames name List.mem_cons_self
    obtain ⟨⟨-, hslash'⟩, dir, hdir, hmem⟩ := hnames' name' List.mem_cons_self
    have hfirst := takeWhile_intercalate hslash names
    have hfirst' := takeWhile_intercalate hslash' names'
    have hstem := mt (stem_searchRoot_iff pattern).mp hstraight
    rcases base_cases pattern with ⟨hbase, hroot⟩ | ⟨pre, hbase, hroot⟩
    · -- `./` in front of an entry makes `.` the first name
      rw [hbase, List.nil_append, hp, hroot] at hp'
      have hdotFirst : (stem [dot] ++ [slash].intercalate (name :: names)).takeWhile (fun c => c ≠ slash)
          = [dot] := by
        rw [show stem [dot] = [dot, slash] by decide]
        rfl
      rw [← hp', hdotFirst] at hfirst'
      exact hdot dir hdir (hfirst' ▸ hmem)
    · -- one of the two separators is missing, and no name begins with the other
      rw [hbase, hroot] at hstem
      by_cases hnil : pre = []
      · subst hnil
        exact hstem rfl
      · rw [if_neg hnil] at hroot hstem
        rw [stem] at hstem
        split_ifs at hstem with h
        · rw [hp, hroot, stem, if_pos h, hbase, List.append_assoc] at hp'
          rw [List.append_cancel_left hp', List.singleton_append, List.takeWhile_cons_of_neg (by simp)]
            at hfirst
          exact hname hfirst.symm
        · exact hstem rfl
  · exact not_collected_searchRoot htree hcollected

end Spelling

/-- **The paths that match are returned exactly if the pattern has a directory part that does not end in
two separators**, the root apart, which is never returned — or if nothing matches, however it is spelled. -/
theorem getMatchingPaths_iff (matchPath : Bytes → Bytes → Bool) (fs : FileSystem) (pattern : Bytes)
    (htree : DirectoryTree fs.isDir fs.children (searchRoot pattern))
    (hlisted : ∀ dir, Discovered fs.isDir fs.children (searchRoot pattern) dir → (fs.getChildren dir).1 = .ok)
    (hdot : ∀ dir, Discovered fs.isDir fs.children (searchRoot pattern) dir → [dot] ∉ fs.children dir) :
    ReturnsMatches matchPath fs pattern ↔
      (Straight pattern ∧ (base pattern = [slash] → matchPath [slash] pattern = false)) ∨
      ∀ p, matchPath p pattern = true → ¬ Collected fs pattern p ∧ ¬ ExistingPath fs pattern p := by
  rw [returnsMatches_iff htree hlisted]
  by_cases hstraight : Straight pattern
  · constructor
    · intro hagree
      refine .inl ⟨hstraight, fun hbase => ?_⟩
      by_contra hmatch
      have hexisting := (existingPath_iff_of_straight htree hstraight [slash]).mpr (.inr ⟨rfl, hbase⟩)
      have hcollected := (hagree [slash] (Bool.of_not_eq_false hmatch)).mpr hexisting
      have hroot : searchRoot pattern = [slash] := by
        rcases base_cases pattern with ⟨hnil, -⟩ | ⟨pre, hpre, hroot⟩
        · exact absurd hnil hstraight.1
        · rw [hbase] at hpre
          rw [hroot, if_pos (List.append_left_eq_self.mp hpre.symm)]
      exact not_collected_searchRoot htree (hroot ▸ hcollected)
    · rintro (⟨-, hslash⟩ | hnone) p hp
      · rw [existingPath_iff_of_straight htree hstraight]
        refine ⟨.inl, fun h => h.elim id ?_⟩
        rintro ⟨rfl, hbase⟩
        exact absurd hp (ne_true_of_eq_false (hslash hbase))
      · exact iff_of_false (hnone p hp).1 (hnone p hp).2
  · constructor
    · intro hagree
      refine .inr fun p hp => ?_
      have hnot : ¬ Collected fs pattern p := by
        intro hcollected
        exact not_existingPath_of_collected htree hdot hstraight hcollected ((hagree p hp).mp hcollected)
      exact ⟨hnot, mt (hagree p hp).mpr hnot⟩
    · rintro (⟨hstraight', -⟩ | hnone) p hp
      · exact absurd hstraight' hstraight
      · exact iff_of_false (hnone p hp).1 (hnone p hp).2

/-- A directory with one file `x` in it. -/
def smallDisk (dir : Bytes) : FileSystem where
  fileExists _ := true
  stat path := (.ok, ⟨path = dir⟩)
  getChildren _ := (.ok, [[0x78]])
  deleteFile _ := .ok
  createDirectory _ := .ok
  deleteDirectory _ := .ok

/-- What matches a pattern whose only wildcard is a star at its end. -/
def starMatch (path pattern : Bytes) : Bool :=
  pattern.dropLast.isPrefixOf path && decide (slash ∉ path.drop pattern.dropLast.length)

/-- `d/*` where `d` has the file `x`. -/
theorem getMatchingPaths_star :
    ReturnsMatches starMatch (smallDisk [0x64]) [0x64, 0x2f, 0x2a] ↔
      (Straight [0x64, 0x2f, 0x2a] ∧ (base [0x64, 0x2f, 0x2a] = [slash] →
        starMatch [slash] [0x64, 0x2f, 0x2a] = false)) ∨
      ∀ p, starMatch p [0x64, 0x2f, 0x2a] = true →
        ¬ Collected (smallDisk [0x64]) [0x64, 0x2f, 0x2a] p ∧
          ¬ ExistingPath (smallDisk [0x64]) [0x64, 0x2f, 0x2a] p :=
  getMatchingPaths_iff starMatch (smallDisk [0x64]) [0x64, 0x2f, 0x2a]
    (directoryTree_of_leaf (by decide) (by decide) (by decide)) (fun _ _ => rfl)
    (fun _ _ => (by decide : [dot] ∉ [[0x78]]))

/-- `*` where the working directory has the file `x`: it is collected as `./x`, which does not match. -/
theorem getMatchingPaths_noDirectory :
    DirectoryTree (smallDisk [dot]).isDir (smallDisk [dot]).children (searchRoot [0x2a]) ∧
    (∀ dir, Discovered (smallDisk [dot]).isDir (smallDisk [dot]).children (searchRoot [0x2a]) dir →
      ((smallDisk [dot]).getChildren dir).1 = .ok) ∧
    ¬ ReturnsMatches starMatch (smallDisk [dot]) [0x2a] := by
  have htree : DirectoryTree (smallDisk [dot]).isDir (smallDisk [dot]).children (searchRoot [0x2a]) :=
    directoryTree_of_leaf (by decide) (by decide) (by decide)
  have hlisted : ∀ dir, Discovered (smallDisk [dot]).isDir (smallDisk [dot]).children (searchRoot [0x2a]) dir →
      ((smallDisk [dot]).getChildren dir).1 = .ok := fun _ _ => rfl
  refine ⟨htree, hlisted, fun hreturns => ?_⟩
  have hexisting : ExistingPath (smallDisk [dot]) [0x2a] [0x78] := .inl ⟨[[0x78]], List.mem_cons_self, rfl⟩
  obtain ⟨names, -, hpath⟩ := (collected_iff htree [0x78]).mp
    (((returnsMatches_iff htree hlisted).mp hreturns [0x78] rfl).mpr hexisting)
  have hstem : stem (searchRoot [0x2a]) = [dot, slash] := by decide
  rw [hstem] at hpath
  cases hpath

end LearnNetlib
