import LearnNetlib.Base.Status
import LearnNetlib.Foundations.BreadthFirst
import LearnNetlib.Io.SplitPath

/-!
# `FileSystem`

What the functions of `base/platform/file_system.cc` ask of the file system they are methods of, and the
tree of directories they walk through.

* `FileSystem`, `isDirectory` — the virtual functions, each with whatever it answers for a path;
* `childPaths`, `subdirectories` — the entries of a directory under the names that `JoinPath` gives them;
* `DirectoryTree` — no chain of directories goes on for ever, and entries have proper names;
* **`joinPathImpl_injective`** — one path is not found in two places;
* **`isTree_subdirectories`** — such directories are a tree for the walk.
-/

namespace LearnNetlib

open LearnNetlib.Path BreadthFirst

/-! ### The file system -/

/-- `FileStatistics`. -/
structure FileStatistics where
  isDirectory : Bool
  deriving Repr, DecidableEq

/-- The virtual functions of `FileSystem`. What the functions below ask is asked once of a path, so an
answer that depends on the path alone can be any answer. -/
structure FileSystem where
  fileExists : Bytes → Bool
  stat : Bytes → Status × FileStatistics
  getChildren : Bytes → Status × List Bytes
  deleteFile : Bytes → Status
  createDirectory : Bytes → Status
  deleteDirectory : Bytes → Status

/-- `IsDirectory`. -/
def FileSystem.isDirectory (fs : FileSystem) (name : Bytes) : Status :=
  if fs.fileExists name = false then .error .notFound "Path not found"
  else
    let res := fs.stat name
    if res.1.isOk = false then res.1
    else if res.2.isDirectory then .ok
    else .error .failedPrecondition "Not a directory"

/-- `IsDirectory(name).ok()`. -/
def FileSystem.isDir (fs : FileSystem) (name : Bytes) : Bool := (fs.isDirectory name).isOk

/-! ### The directories below a directory -/

variable (isDir : Bytes → Bool) (names : Bytes → List Bytes)

/-- The entries of a directory. -/
def childPaths (dir : Bytes) : List Bytes := (names dir).map fun child => joinPathImpl [dir, child]

/-- Those of them that are directories. -/
def subdirectories (dir : Bytes) : List Bytes := (childPaths names dir).filter isDir

/-- A directory that a walk from `root` comes to. -/
abbrev Discovered (root dir : Bytes) : Prop := Below (subdirectories isDir names) root dir

/-- A finite tree of directories. -/
structure DirectoryTree (root : Bytes) : Prop where
  finite : Acc (Child (subdirectories isDir names)) root
  proper : ∀ dir, Discovered isDir names root dir → ∀ name ∈ names dir, name ≠ [] ∧ slash ∉ name
  nodup : ∀ dir, Discovered isDir names root dir → (names dir).Nodup

variable {isDir names} {root : Bytes}

theorem mem_childPaths {dir p : Bytes} :
    p ∈ childPaths names dir ↔ ∃ name ∈ names dir, joinPathImpl [dir, name] = p := List.mem_map

theorem mem_subdirectories {dir p : Bytes} :
    p ∈ subdirectories isDir names dir ↔ p ∈ childPaths names dir ∧ isDir p = true := List.mem_filter

/-- The entries of a directory have longer paths than it, which do not end in a separator. -/
theorem discovered_cases (htree : DirectoryTree isDir names root) {dir : Bytes}
    (h : Discovered isDir names root dir) :
    dir = root ∨ root.length < dir.length ∧ dir ≠ [] ∧ dir.getLast? ≠ some slash := by
  induction h with
  | refl => exact .inl rfl
  | @tail parent dir hparent hstep ih =>
    obtain ⟨hmem, -⟩ := mem_subdirectories.mp hstep
    obtain ⟨name, hname, rfl⟩ := mem_childPaths.mp hmem
    obtain ⟨hne, hslash⟩ := htree.proper parent hparent name hname
    have hlonger := length_joinPathImpl parent hslash hne
    have hlast : (joinPathImpl [parent, name]).getLast? = name.getLast? := by
      rw [joinPathImpl_name hslash hne]
      split_ifs
      · exact List.getLast?_append_of_ne_nil parent hne
      · rw [← List.singleton_append, ← List.append_assoc]
        exact List.getLast?_append_of_ne_nil _ hne
    refine .inr ⟨?_, List.ne_nil_of_length_pos (Nat.zero_lt_of_lt hlonger), ?_⟩
    · rcases ih with rfl | ⟨hroot, -⟩
      · exact hlonger
      · exact Nat.lt_trans hroot hlonger
    · rw [hlast]
      exact fun h => hslash (List.mem_of_getLast? h)

/-- **An entry has one parent and one name.** -/
theorem joinPathImpl_injective (htree : DirectoryTree isDir names root) {dir dir' name name' : Bytes}
    (hdir : Discovered isDir names root dir) (hdir' : Discovered isDir names root dir')
    (hname : name ≠ [] ∧ slash ∉ name) (hname' : name' ≠ [] ∧ slash ∉ name')
    (h : joinPathImpl [dir, name] = joinPathImpl [dir', name']) : dir = dir' ∧ name = name' := by
  have hsame : name = name' := by
    have hparts := congrArg parts h
    rw [parts_joinPathImpl hname.2 hname.1, parts_joinPathImpl hname'.2 hname'.1] at hparts
    exact (List.append_singleton_inj.mp hparts).2
  subst hsame
  refine ⟨?_, rfl⟩
  -- a directory that ends in a separator is the root, and what is found below it is longer
  have hapart : ∀ {a b : Bytes}, Discovered isDir names root a → Discovered isDir names root b →
      (a = [] ∨ a.getLast? = some slash) → a ++ name ≠ b ++ slash :: name := by
    intro a b ha hb hends heq
    have hab : a = b ++ [slash] := by
      have hsplit : a ++ name = b ++ [slash] ++ name := by
        rw [heq, List.append_assoc, List.singleton_append]
      exact List.append_cancel_right hsplit
    have hroot : a = root := by
      rcases discovered_cases htree ha with hroot | ⟨-, hne, hlast⟩
      · exact hroot
      · exact (hends.elim hne hlast).elim
    rw [← hroot] at htree hb
    have hlength : a.length = b.length + 1 := by rw [hab, List.length_append, List.length_singleton]
    rcases discovered_cases htree hb with rfl | ⟨hlt, -⟩
    · omega
    · omega
  rw [joinPathImpl_name hname.2 hname.1, joinPathImpl_name hname.2 hname.1] at h
  split_ifs at h with hends hends' hends'
  · exact List.append_cancel_right h
  · exact absurd h (hapart hdir hdir' hends)
  · exact absurd h.symm (hapart hdir' hdir hends')
  · exact List.append_cancel_right h

theorem nodup_childPaths (htree : DirectoryTree isDir names root) {dir : Bytes}
    (hdir : Discovered isDir names root dir) : (childPaths names dir).Nodup := by
  refine List.Nodup.map_on ?_ (htree.nodup dir hdir)
  intro name hname name' hname' h
  exact (joinPathImpl_injective htree hdir hdir (htree.proper dir hdir name hname)
    (htree.proper dir hdir name' hname') h).2

theorem eq_of_mem_childPaths (htree : DirectoryTree isDir names root) {dir dir' p : Bytes}
    (hdir : Discovered isDir names root dir) (hdir' : Discovered isDir names root dir')
    (h : p ∈ childPaths names dir) (h' : p ∈ childPaths names dir') : dir = dir' := by
  obtain ⟨name, hname, rfl⟩ := mem_childPaths.mp h
  obtain ⟨name', hname', heq⟩ := mem_childPaths.mp h'
  exact (joinPathImpl_injective htree hdir hdir' (htree.proper dir hdir name hname)
    (htree.proper dir' hdir' name' hname') heq.symm).1

/-- **The directories are a tree.** -/
theorem isTree_subdirectories (htree : DirectoryTree isDir names root) :
    IsTree (subdirectories isDir names) (Discovered isDir names root) where
  closed dir hdir sub hsub := hdir.tail hsub
  acc dir hdir := by
    induction hdir with
    | refl => exact htree.finite
    | tail _ hstep ih => exact ih.inv hstep
  parent dir dir' hdir hdir' sub hsub hsub' :=
    eq_of_mem_childPaths htree hdir hdir' (mem_subdirectories.mp hsub).1 (mem_subdirectories.mp hsub').1
  nodup dir hdir := (nodup_childPaths htree hdir).filter _

/-- A directory without directories in it is a tree. -/
theorem directoryTree_of_leaf (hleaf : subdirectories isDir names root = [])
    (hproper : ∀ name ∈ names root, name ≠ [] ∧ slash ∉ name) (hnodup : (names root).Nodup) :
    DirectoryTree isDir names root := by
  have hchild : ∀ sub, ¬ Child (subdirectories isDir names) sub root := by
    intro sub hsub
    rw [Child, hleaf] at hsub
    cases hsub
  have honly : ∀ dir, Discovered isDir names root dir → dir = root := by
    intro dir hdir
    rcases below_iff.mp hdir with rfl | ⟨sub, hsub, -⟩
    · rfl
    · exact absurd hsub (hchild sub)
  refine ⟨Acc.intro root fun sub hsub => absurd hsub (hchild sub), fun dir hdir => ?_, fun dir hdir => ?_⟩
  · rwa [honly dir hdir]
  · rwa [honly dir hdir]

/-- The walk from the root of a tree. -/
theorem exists_walk_root (htree : DirectoryTree isDir names root) :
    ∃ order, Walk (subdirectories isDir names) [root] order :=
  exists_walk (List.forall_mem_singleton.mpr htree.finite)

theorem mem_walk_root {order : List Bytes} (hwalk : Walk (subdirectories isDir names) [root] order)
    (dir : Bytes) : dir ∈ order ↔ Discovered isDir names root dir := by
  rw [mem_walk_iff hwalk]
  simp

theorem nodup_walk_root (htree : DirectoryTree isDir names root) {order : List Bytes}
    (hwalk : Walk (subdirectories isDir names) [root] order) : order.Nodup :=
  nodup_walk (isTree_subdirectories htree) hwalk (List.forall_mem_singleton.mpr .refl)
    (List.pairwise_singleton _ root)

/-- **No entry is found twice** in the directories of the walk. -/
theorem nodup_flatMap_childPaths (htree : DirectoryTree isDir names root) {order : List Bytes}
    (hwalk : Walk (subdirectories isDir names) [root] order) : (order.flatMap (childPaths names)).Nodup := by
  refine List.nodup_flatMap.mpr ⟨fun dir hdir => nodup_childPaths htree ((mem_walk_root hwalk dir).mp hdir), ?_⟩
  refine List.Pairwise.imp_of_mem ?_ (nodup_walk_root htree hwalk)
  intro dir dir' hdir hdir' hne p hp hp'
  exact hne (eq_of_mem_childPaths htree ((mem_walk_root hwalk dir).mp hdir)
    ((mem_walk_root hwalk dir').mp hdir') hp hp')

end LearnNetlib
