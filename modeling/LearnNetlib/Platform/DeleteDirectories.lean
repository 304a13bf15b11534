import LearnNetlib.Platform.FileSystem

/-!
# `DeleteDirectoryRecursively`

* `deleteDirectoryRecursively` — the code, with a log of its calls and what they returned;
* `summary` — every other variable of it is a function of the log;
* `deletionTurn_summary`, **`deleteDirectoryRecursively_eq`** — the log of a run: for each directory of the
  walk its listing and the files in it, then the directories in reverse order;
* **`deleteDirectoryRecursively_spec`** — what is deleted, in which order, and what is returned;
* **`undeleted_iff`** — the counters are right unless a listing fails.
-/

namespace LearnNetlib

open LearnNetlib.Path BreadthFirst

/-! ### The code -/

/-- The calls that may fail. -/
inductive Call
  | getChildren (dir : Bytes)
  | deleteFile (path : Bytes)
  | deleteDirectory (dir : Bytes)
  deriving Repr, DecidableEq

/-- The variables of `DeleteDirectoryRecursively`, and the log of its calls. -/
structure Deletion where
  dirQ : List Bytes
  dirList : List Bytes
  ret : Status
  undeletedFiles : ℕ
  undeletedDirs : ℕ
  log : List (Call × Status)
  deriving Repr, DecidableEq

namespace Deletion

/-- A call and `ret.Update`. -/
def call (d : Deletion) (c : Call) (s : Status) : Deletion :=
  { d with ret := d.ret.update s, log := d.log ++ [(c, s)] }

/-- `(*undeleted_files)++`. -/
def addFile (d : Deletion) : Deletion := { d with undeletedFiles := d.undeletedFiles + 1 }

/-- `(*undeleted_dirs)++`. -/
def addDir (d : Deletion) : Deletion := { d with undeletedDirs := d.undeletedDirs + 1 }

end Deletion

/-- A turn of the loop over `children`. -/
def deleteChild (fs : FileSystem) (dir : Bytes) (d : Deletion) (child : Bytes) : Deletion :=
  let childPath := joinPathImpl [dir, child]
  -- If the child is a directory add it to the queue, otherwise delete it.
  if (fs.isDirectory childPath).isOk then { d with dirQ := d.dirQ ++ [childPath] }
  else
    let delStatus := fs.deleteFile childPath
    let d := d.call (.deleteFile childPath) delStatus
    if delStatus.isOk then d else d.addFile

/-- A turn of the loop over `dir_q`. -/
def deletionTurn (fs : FileSystem) (d : Deletion) : Access (Deletion ⊕ Deletion) :=
  match d.dirQ with
  | [] => .ok (.inr d)
  | dir :: dirQ =>
    let res := fs.getChildren dir
    let d := { d with dirQ, dirList := d.dirList ++ [dir] }.call (.getChildren dir) res.1
    if res.1.isOk then .ok (.inl (res.2.foldl (deleteChild fs dir) d))
    else .ok (.inl d.addDir)

/-- A turn of the loop over `dir_list`. -/
def removeDirectory (fs : FileSystem) (d : Deletion) (dir : Bytes) : Deletion :=
  let s := fs.deleteDirectory dir
  let d := d.call (.deleteDirectory dir) s
  if s.isOk then d else d.addDir

/-- `DeleteDirectoryRecursively`, if its loop over `dir_q` ends after fewer than `fuel` turns. -/
def deleteDirectoryRecursively (fs : FileSystem) (fuel : ℕ) (dirname : Bytes) : Access Deletion :=
  -- Make sure that dirname exists;
  if fs.fileExists dirname = false then
    .ok ⟨[], [], .error .notFound "Directory doesn't exist", 0, 1, []⟩
  else do
    let d ← Loops.loop .stillRunning (deletionTurn fs) fuel ⟨[dirname], [], .ok, 0, 0, []⟩
    return d.dirList.reverse.foldl (removeDirectory fs) d

/-! ### The log -/

namespace Call

/-- A call that counts for `undeleted_files` if it fails. -/
def isFile : Call → Bool
  | deleteFile _ => true
  | _ => false

/-- A call that counts for `undeleted_dirs` if it fails. -/
def isDir : Call → Bool
  | deleteFile _ => false
  | _ => true

end Call

/-- How many calls of a kind have failed. -/
def failed (kind : Call → Bool) (log : List (Call × Status)) : ℕ :=
  log.countP fun e => kind e.1 && !e.2.isOk

/-- The variables, as they follow from a log. -/
def summary (dirQ dirList : List Bytes) (log : List (Call × Status)) : Deletion :=
  ⟨dirQ, dirList, .firstError (log.map Prod.snd), failed Call.isFile log, failed Call.isDir log, log⟩

/-- What `GetChildren` returns, if it succeeds. -/
def listing (fs : FileSystem) (dir : Bytes) : List Bytes :=
  if (fs.getChildren dir).1.isOk then (fs.getChildren dir).2 else []

/-- The entries that are not directories. -/
def filesIn (fs : FileSystem) (dir : Bytes) : List Bytes :=
  (childPaths (listing fs) dir).filter fun p => !fs.isDir p

/-- The calls for one directory of the walk. -/
def events (fs : FileSystem) (dir : Bytes) : List (Call × Status) :=
  (.getChildren dir, (fs.getChildren dir).1) ::
    (filesIn fs dir).map fun p => (.deleteFile p, fs.deleteFile p)

/-- The calls that remove the directories. -/
def removals (fs : FileSystem) (dirs : List Bytes) : List (Call × Status) :=
  dirs.map fun dir => (.deleteDirectory dir, fs.deleteDirectory dir)

variable {fs : FileSystem}

theorem failed_append (kind : Call → Bool) (log log' : List (Call × Status)) :
    failed kind (log ++ log') = failed kind log + failed kind log' := List.countP_append

theorem failed_singleton (kind : Call → Bool) (c : Call) (s : Status) :
    failed kind [(c, s)] = if kind c && !s.isOk then 1 else 0 := List.countP_singleton

theorem firstError_concat (statuses : List Status) (s : Status) :
    Status.firstError (statuses ++ [s]) = (Status.firstError statuses).update s := by
  cases statuses with
  | nil => cases s <;> rfl
  | cons t statuses =>
    rw [List.cons_append, ← Status.foldl_update, ← Status.foldl_update, List.foldl_append, List.foldl_cons,
      List.foldl_nil]

/-- A call that succeeds. -/
theorem call_summary_ok (dirQ dirList : List Bytes) (log : List (Call × Status)) (c : Call) {s : Status}
    (hs : s.isOk = true) : (summary dirQ dirList log).call c s = summary dirQ dirList (log ++ [(c, s)]) := by
  rw [summary, summary, Deletion.call, failed_append, failed_append, failed_singleton, failed_singleton, hs,
    List.map_append]
  simp [firstError_concat]

/-- A call for a file that fails. -/
theorem call_summary_addFile (dirQ dirList : List Bytes) (log : List (Call × Status)) (path : Bytes)
    {s : Status} (hs : ¬ s.isOk = true) :
    ((summary dirQ dirList log).call (.deleteFile path) s).addFile
      = summary dirQ dirList (log ++ [(.deleteFile path, s)]) := by
  rw [summary, summary, Deletion.call, Deletion.addFile, failed_append, failed_append, failed_singleton,
    failed_singleton, List.map_append]
  simp [firstError_concat, hs, Call.isFile, Call.isDir]

/-- A call for a directory that fails. -/
theorem call_summary_addDir (dirQ dirList : List Bytes) (log : List (Call × Status)) {c : Call}
    {s : Status} (hc : c.isDir = true) (hfile : c.isFile = false) (hs : ¬ s.isOk = true) :
    ((summary dirQ dirList log).call c s).addDir = summary dirQ dirList (log ++ [(c, s)]) := by
  rw [summary, summary, Deletion.call, Deletion.addDir, failed_append, failed_append, failed_singleton,
    failed_singleton, List.map_append]
  simp [firstError_concat, hs, hc, hfile]

/-- The loop over `children`. -/
theorem foldl_deleteChild (dir : Bytes) (children dirQ dirList : List Bytes) (log : List (Call × Status)) :
    children.foldl (deleteChild fs dir) (summary dirQ dirList log)
      = summary (dirQ ++ (children.map fun child => joinPathImpl [dir, child]).filter fs.isDir) dirList
          (log ++ ((children.map fun child => joinPathImpl [dir, child]).filter fun p => !fs.isDir p).map
            fun p => (.deleteFile p, fs.deleteFile p)) := by
  induction children generalizing dirQ log with
  | nil => simp
  | cons child children ih =>
    rw [List.foldl_cons, List.map_cons]
    by_cases hdir : fs.isDir (joinPathImpl [dir, child]) = true
    · have hturn : deleteChild fs dir (summary dirQ dirList log) child
          = summary (dirQ ++ [joinPathImpl [dir, child]]) dirList log := if_pos hdir
      rw [hturn, ih, List.filter_cons_of_pos hdir, List.filter_cons_of_neg (by simp [hdir]),
        List.append_assoc, List.singleton_append]
    · have hturn : deleteChild fs dir (summary dirQ dirList log) child = summary dirQ dirList
          (log ++ [(.deleteFile (joinPathImpl [dir, child]), fs.deleteFile (joinPathImpl [dir, child]))]) := by
        rw [deleteChild]
        dsimp only
        rw [if_neg (show ¬ (fs.isDirectory (joinPathImpl [dir, child])).isOk = true from hdir)]
        split_ifs with hs
        · exact call_summary_ok _ _ _ _ hs
        · exact call_summary_addFile _ _ _ _ hs
      rw [hturn, ih, List.filter_cons_of_neg hdir, List.filter_cons_of_pos (by simp [hdir]), List.map_cons,
        List.append_assoc, List.singleton_append]

/-- **A turn**: one directory of the walk. -/
theorem deletionTurn_summary (dir : Bytes) (dirQ dirList : List Bytes) (log : List (Call × Status)) :
    deletionTurn fs (summary (dir :: dirQ) dirList log)
      = .ok (.inl (summary (dirQ ++ subdirectories fs.isDir (listing fs) dir) (dirList ++ [dir])
          (log ++ events fs dir))) := by
  have hturn : deletionTurn fs (summary (dir :: dirQ) dirList log)
      = if (fs.getChildren dir).1.isOk then .ok (.inl ((fs.getChildren dir).2.foldl (deleteChild fs dir)
          ((summary dirQ (dirList ++ [dir]) log).call (.getChildren dir) (fs.getChildren dir).1)))
        else .ok (.inl ((summary dirQ (dirList ++ [dir]) log).call (.getChildren dir)
          (fs.getChildren dir).1).addDir) := rfl
  rw [hturn, events, filesIn, subdirectories, childPaths, listing]
  split_ifs with hs
  · rw [call_summary_ok _ _ _ _ hs, foldl_deleteChild, List.append_assoc, List.singleton_append]
  · rw [call_summary_addDir _ _ _ rfl rfl hs, List.map_nil, List.filter_nil, List.filter_nil,
      List.map_nil, List.append_nil]

/-- The loop over `dir_list`. -/
theorem foldl_removeDirectory (dirs dirList : List Bytes) (log : List (Call × Status)) :
    dirs.foldl (removeDirectory fs) (summary [] dirList log)
      = summary [] dirList (log ++ removals fs dirs) := by
  induction dirs generalizing log with
  | nil => rw [removals, List.map_nil, List.append_nil]; rfl
  | cons dir dirs ih =>
    have hturn : removeDirectory fs (summary [] dirList log) dir
        = summary [] dirList (log ++ [(.deleteDirectory dir, fs.deleteDirectory dir)]) := by
      rw [removeDirectory]
      split_ifs with hs
      · exact call_summary_ok _ _ _ _ hs
      · exact call_summary_addDir _ _ _ rfl rfl hs
    rw [List.foldl_cons, hturn, ih, List.append_assoc]
    rfl

/-- The log of a run. -/
def runLog (fs : FileSystem) (order : List Bytes) : List (Call × Status) :=
  order.flatMap (events fs) ++ removals fs order.reverse

/-- **A run** follows the walk of the tree. -/
theorem deleteDirectoryRecursively_eq {dirname : Bytes} {order : List Bytes}
    (hexists : fs.fileExists dirname = true)
    (hwalk : Walk (subdirectories fs.isDir (listing fs)) [dirname] order) :
    deleteDirectoryRecursively fs (order.length + 1) dirname = .ok (summary [] order (runLog fs order)) := by
  let state : List Bytes → List Bytes × List (Call × Status) → Deletion := fun q b => summary q b.1 b.2
  let visit : List Bytes × List (Call × Status) → Bytes → List Bytes × List (Call × Status) :=
    fun b dir => (b.1 ++ [dir], b.2 ++ events fs dir)
  have hloop : Loops.loop Stop.stillRunning (deletionTurn fs) (order.length + 1) (state [dirname] ([], []))
      = .ok (state [] (order.foldl visit ([], []))) :=
    loop_walk state visit (fun _ => rfl) (fun dir rest b => deletionTurn_summary dir rest b.1 b.2) hwalk _
  have hfold : ∀ (order : List Bytes) (b : List Bytes × List (Call × Status)),
      order.foldl visit b = (b.1 ++ order, b.2 ++ order.flatMap (events fs)) := by
    intro order
    induction order with
    | nil => intro b; simp
    | cons dir order ih => intro b; simp [ih, visit]
  rw [hfold] at hloop
  rw [deleteDirectoryRecursively, if_neg (ne_false_of_eq_true hexists)]
  show (Loops.loop .stillRunning (deletionTurn fs) (order.length + 1) (state [dirname] ([], [])) >>= _) = _
  rw [hloop]
  exact congrArg Except.ok (foldl_removeDirectory order.reverse order _)

/-- Runs that end end alike. -/
theorem deleteDirectoryRecursively_unique {fuel fuel' : ℕ} {dirname : Bytes} {d d' : Deletion}
    (h : deleteDirectoryRecursively fs fuel dirname = .ok d)
    (h' : deleteDirectoryRecursively fs fuel' dirname = .ok d') : d = d' := by
  rw [deleteDirectoryRecursively] at h h'
  split_ifs at h h' with hexists
  · exact Except.ok.inj (h.symm.trans h')
  · obtain ⟨a, hloop, hrest⟩ := Access.bind_eq_ok.mp h
    obtain ⟨a', hloop', hrest'⟩ := Access.bind_eq_ok.mp h'
    obtain rfl := Loops.loop_unique hloop hloop'
    exact Except.ok.inj (hrest.symm.trans hrest')

/-! ### What is deleted -/

namespace Call

/-- The path of a call of `DeleteFile`. -/
def file? : Call → Option Bytes
  | deleteFile path => some path
  | _ => none

/-- The path of a call of `DeleteDirectory`. -/
def directory? : Call → Option Bytes
  | deleteDirectory dir => some dir
  | _ => none

/-- What the file system returns. -/
def answer (fs : FileSystem) : Call → Status
  | getChildren dir => (fs.getChildren dir).1
  | deleteFile path => fs.deleteFile path
  | deleteDirectory dir => fs.deleteDirectory dir

end Call

/-- The calls of `DeleteFile`. -/
def fileCalls (log : List (Call × Status)) : List Bytes := log.filterMap fun e => e.1.file?

/-- The calls of `DeleteDirectory`. -/
def directoryCalls (log : List (Call × Status)) : List Bytes := log.filterMap fun e => e.1.directory?

/-- A directory below `dirname` that is found through listings that succeed, or `dirname` itself. -/
abbrev DiscoveredDir (fs : FileSystem) (dirname dir : Bytes) : Prop :=
  Discovered fs.isDir (listing fs) dirname dir

/-- A child of such a directory, listed with success, that is no directory. -/
def DiscoveredFile (fs : FileSystem) (dirname p : Bytes) : Prop :=
  ∃ dir, DiscoveredDir fs dirname dir ∧ (fs.getChildren dir).1 = .ok ∧
    (∃ child ∈ (fs.getChildren dir).2, joinPathImpl [dir, child] = p) ∧ fs.isDirectory p ≠ .ok

variable {dirname : Bytes} {order : List Bytes}

theorem fileCalls_runLog (fs : FileSystem) (order : List Bytes) :
    fileCalls (runLog fs order) = order.flatMap (filesIn fs) := by
  have hremovals : ∀ dirs, fileCalls (removals fs dirs) = [] := by
    intro dirs
    rw [fileCalls, removals, List.filterMap_map]
    exact List.filterMap_eq_nil_iff.mpr fun _ _ => rfl
  have hevents : ∀ dir, fileCalls (events fs dir) = filesIn fs dir := by
    intro dir
    rw [fileCalls, events, List.filterMap_cons_none rfl, List.filterMap_map]
    exact List.filterMap_some
  have hflat : fileCalls (order.flatMap (events fs)) = order.flatMap (filesIn fs) := by
    rw [fileCalls, List.filterMap_flatMap]
    exact congrArg order.flatMap (funext hevents)
  rw [runLog, fileCalls, List.filterMap_append]
  exact (congrArg₂ _ hflat (hremovals _)).trans (List.append_nil _)

theorem directoryCalls_runLog (fs : FileSystem) (order : List Bytes) :
    directoryCalls (runLog fs order) = order.reverse := by
  have hremovals : ∀ dirs, directoryCalls (removals fs dirs) = dirs := by
    intro dirs
    rw [directoryCalls, removals, List.filterMap_map]
    exact List.filterMap_some
  have hevents : ∀ e ∈ order.flatMap (events fs), e.1.directory? = none := by
    intro e he
    obtain ⟨dir, -, he⟩ := List.mem_flatMap.mp he
    rcases List.mem_cons.mp he with rfl | he
    · rfl
    · obtain ⟨p, -, rfl⟩ := List.mem_map.mp he
      rfl
  rw [runLog, directoryCalls, List.filterMap_append, List.filterMap_eq_nil_iff.mpr hevents, List.nil_append]
  exact hremovals _

theorem mem_filesIn {dir p : Bytes} : p ∈ filesIn fs dir ↔
    (fs.getChildren dir).1 = .ok ∧ (∃ child ∈ (fs.getChildren dir).2, joinPathImpl [dir, child] = p) ∧
      fs.isDirectory p ≠ .ok := by
  have hdir : (!fs.isDir p) = true ↔ fs.isDirectory p ≠ .ok := by
    rw [Bool.not_eq_true', FileSystem.isDir, Status.isOk_eq_false_iff]
  rw [filesIn, List.mem_filter, mem_childPaths, hdir, ← and_assoc, ← Status.isOk_iff, listing]
  split_ifs with hs
  · simp only [hs, true_and]
  · simp [hs]

theorem mem_flatMap_filesIn (hwalk : Walk (subdirectories fs.isDir (listing fs)) [dirname] order)
    (p : Bytes) : p ∈ order.flatMap (filesIn fs) ↔ DiscoveredFile fs dirname p := by
  rw [List.mem_flatMap]
  exact exists_congr fun dir => and_congr (mem_walk_root hwalk dir) mem_filesIn

theorem nodup_flatMap_filesIn (htree : DirectoryTree fs.isDir (listing fs) dirname)
    (hwalk : Walk (subdirectories fs.isDir (listing fs)) [dirname] order) :
    (order.flatMap (filesIn fs)).Nodup := by
  have hfilter : order.flatMap (filesIn fs)
      = (order.flatMap (childPaths (listing fs))).filter fun p => !fs.isDir p :=
    List.filter_flatMap.symm
  rw [hfilter]
  exact (nodup_flatMap_childPaths htree hwalk).filter _

/-- What a run of `DeleteDirectoryRecursively` has done to the tree below `dirname`. -/
structure DeletesTree (fs : FileSystem) (dirname : Bytes) (d : Deletion) : Prop where
  /-- The log has what the file system returned. -/
  answered : ∀ e ∈ d.log, e.2 = e.1.answer fs
  /-- `DeleteFile` is called once for each file discovered, and for nothing else. -/
  files_nodup : (fileCalls d.log).Nodup
  mem_files : ∀ p, p ∈ fileCalls d.log ↔ DiscoveredFile fs dirname p
  /-- `DeleteDirectory` is called once for each directory discovered, and for nothing else. -/
  dirs_nodup : (directoryCalls d.log).Nodup
  mem_dirs : ∀ dir, dir ∈ directoryCalls d.log ↔ DiscoveredDir fs dirname dir
  /-- A directory is deleted behind all that are below it. -/
  below_before : ∀ before dir after, directoryCalls d.log = before ++ dir :: after →
    ∀ child ∈ subdirectories fs.isDir (listing fs) dir, ∀ sub, DiscoveredDir fs child sub → sub ∈ before
  /-- The first error is returned, OK if there is none. -/
  ret_eq : d.ret = .firstError (d.log.map Prod.snd)
  ret_ok : d.ret = .ok ↔ ∀ e ∈ d.log, e.2 = .ok

theorem answered_runLog (fs : FileSystem) (order : List Bytes) : ∀ e ∈ runLog fs order, e.2 = e.1.answer fs := by
  intro e he
  rcases List.mem_append.mp he with he | he
  · obtain ⟨dir, -, he⟩ := List.mem_flatMap.mp he
    rcases List.mem_cons.mp he with rfl | he
    · rfl
    · obtain ⟨p, -, rfl⟩ := List.mem_map.mp he
      rfl
  · obtain ⟨dir, -, rfl⟩ := List.mem_map.mp he
    rfl

/-- **The directories are deleted from the leaves to the root, the files on the way**, whatever fails. -/
theorem deleteDirectoryRecursively_spec (fs : FileSystem) (dirname : Bytes)
    (hexists : fs.fileExists dirname = true) (htree : DirectoryTree fs.isDir (listing fs) dirname) :
    ∃ fuel d, deleteDirectoryRecursively fs fuel dirname = .ok d ∧ DeletesTree fs dirname d := by
  obtain ⟨order, hwalk⟩ := exists_walk_root htree
  refine ⟨_, _, deleteDirectoryRecursively_eq hexists hwalk, answered_runLog fs order, ?_, fun p => ?_, ?_,
    fun dir => ?_, fun before dir after horder child hchild sub hsub => ?_, rfl, ?_⟩
  · show (fileCalls (runLog fs order)).Nodup
    rw [fileCalls_runLog]
    exact nodup_flatMap_filesIn htree hwalk
  · show p ∈ fileCalls (runLog fs order) ↔ _
    rw [fileCalls_runLog]
    exact mem_flatMap_filesIn hwalk p
  · show (directoryCalls (runLog fs order)).Nodup
    rw [directoryCalls_runLog, List.nodup_reverse]
    exact nodup_walk_root htree hwalk
  · show dir ∈ directoryCalls (runLog fs order) ↔ _
    rw [directoryCalls_runLog, List.mem_reverse]
    exact mem_walk_root hwalk dir
  · have hreverse : order = after.reverse ++ dir :: before.reverse := by
      rw [← List.reverse_reverse order, ← directoryCalls_runLog fs order]
      exact (congrArg List.reverse horder).trans (by simp)
    exact List.mem_reverse.mp (below_after hwalk hreverse hchild hsub)
  · show Status.firstError _ = .ok ↔ _
    rw [Status.firstError_eq_ok_iff]
    exact List.forall_mem_map

/-- A directory `d` with some files in it, and what `GetChildren` and `DeleteDirectory` say of it. -/
def disk (files : List Bytes) (listed removed : Status) : FileSystem where
  fileExists _ := true
  stat path := (.ok, ⟨path = [0x64]⟩)
  getChildren _ := (listed, files)
  deleteFile _ := .ok
  createDirectory _ := .ok
  deleteDirectory _ := removed

/-- `d` and the file `d/f`. -/
theorem deleteDirectoryRecursively_disk :
    ∃ fuel d, deleteDirectoryRecursively (disk [[0x66]] .ok .ok) fuel [0x64] = .ok d ∧
      DeletesTree (disk [[0x66]] .ok .ok) [0x64] d :=
  deleteDirectoryRecursively_spec (disk [[0x66]] .ok .ok) [0x64] rfl
    (directoryTree_of_leaf (by decide) (by decide) (by decide))

/-! ### The counters -/

theorem failed_isFile_runLog (fs : FileSystem) (order : List Bytes) :
    failed Call.isFile (runLog fs order)
      = ((order.flatMap (filesIn fs)).filter fun p => !(fs.deleteFile p).isOk).length := by
  have hremovals : ∀ dirs, failed Call.isFile (removals fs dirs) = 0 := by
    intro dirs
    rw [failed, removals, List.countP_map]
    exact List.countP_eq_zero.mpr fun _ _ => Bool.false_ne_true
  have hevents : ∀ dir, failed Call.isFile (events fs dir)
      = (filesIn fs dir).countP fun p => !(fs.deleteFile p).isOk := by
    intro dir
    rw [failed, events, List.countP_cons_of_neg Bool.false_ne_true, List.countP_map]
    rfl
  rw [runLog, failed_append, hremovals, Nat.add_zero, ← List.countP_eq_length_filter, failed,
    List.countP_flatMap, List.countP_flatMap]
  exact congrArg List.sum (List.map_congr_left fun dir _ => hevents dir)

/-- A directory counts when its listing fails, and when its removal does. -/
theorem failed_isDir_runLog (fs : FileSystem) (order : List Bytes) :
    failed Call.isDir (runLog fs order) = (order.filter fun dir => !(fs.getChildren dir).1.isOk).length
      + (order.filter fun dir => !(fs.deleteDirectory dir).isOk).length := by
  have hremovals : failed Call.isDir (removals fs order.reverse)
      = order.countP fun dir => !(fs.deleteDirectory dir).isOk := by
    rw [failed, removals, List.countP_map, List.countP_reverse]
    rfl
  have hevents : ∀ order : List Bytes, failed Call.isDir (order.flatMap (events fs))
      = order.countP fun dir => !(fs.getChildren dir).1.isOk := by
    intro order
    induction order with
    | nil => rfl
    | cons dir order ih =>
      have hfiles : failed Call.isDir ((filesIn fs dir).map fun p => (.deleteFile p, fs.deleteFile p)) = 0 := by
        rw [failed, List.countP_map]
        exact List.countP_eq_zero.mpr fun _ _ => Bool.false_ne_true
      rw [List.flatMap_cons, failed_append, ih, events, ← List.singleton_append, failed_append, hfiles,
        failed_singleton, List.countP_cons, Nat.add_zero, Nat.add_comm]
      rfl
  rw [runLog, failed_append, hevents, hremovals, List.countP_eq_length_filter, List.countP_eq_length_filter]

/-- What the counters are for: they say how many files and how many directories are still there. -/
def CountsRemaining (fs : FileSystem) (dirname : Bytes) : Prop :=
  ∃ fuel d, deleteDirectoryRecursively fs fuel dirname = .ok d ∧
    ∃ files dirs : List Bytes, files.Nodup ∧ dirs.Nodup ∧
      (∀ p, p ∈ files ↔ DiscoveredFile fs dirname p ∧ fs.deleteFile p ≠ .ok) ∧
      (∀ dir, dir ∈ dirs ↔ DiscoveredDir fs dirname dir ∧ fs.deleteDirectory dir ≠ .ok) ∧
      d.undeletedFiles = files.length ∧ d.undeletedDirs = dirs.length

/-- The counters along a walk: a directory that cannot be listed counts once for that, and again if it
cannot be deleted. -/
theorem countsRemaining_iff (hexists : fs.fileExists dirname = true)
    (htree : DirectoryTree fs.isDir (listing fs) dirname)
    (hwalk : Walk (subdirectories fs.isDir (listing fs)) [dirname] order) :
    CountsRemaining fs dirname ↔ ∀ dir ∈ order, (fs.getChildren dir).1 = .ok := by
  have hrun := deleteDirectoryRecursively_eq hexists hwalk
  have hnodup := nodup_walk_root htree hwalk
  let remaining : List Bytes := order.filter fun dir => !(fs.deleteDirectory dir).isOk
  have hremaining : ∀ dir, dir ∈ remaining ↔ DiscoveredDir fs dirname dir ∧ fs.deleteDirectory dir ≠ .ok := by
    intro dir
    rw [List.mem_filter, mem_walk_root hwalk, Bool.not_eq_true', Status.isOk_eq_false_iff]
  have hcount : (summary [] order (runLog fs order)).undeletedDirs
      = (order.filter fun dir => !(fs.getChildren dir).1.isOk).length + remaining.length :=
    failed_isDir_runLog fs order
  have hnone : (order.filter fun dir => !(fs.getChildren dir).1.isOk).length = 0 ↔
      ∀ dir ∈ order, (fs.getChildren dir).1 = .ok := by
    rw [List.length_eq_zero_iff, List.filter_eq_nil_iff]
    refine forall₂_congr fun dir _ => ?_
    rw [Bool.not_eq_true', Status.isOk_eq_false_iff, not_not]
  constructor
  · rintro ⟨fuel, d, hrun', files, dirs, -, hdirs, -, hmem, -, hlength⟩
    obtain rfl := deleteDirectoryRecursively_unique hrun hrun'
    have hperm : dirs.Perm remaining := by
      rw [List.perm_ext_iff_of_nodup hdirs (hnodup.filter _)]
      exact fun dir => (hmem dir).trans (hremaining dir).symm
    rw [hcount, hperm.length_eq] at hlength
    exact hnone.mp (by omega)
  · intro hlisted
    refine ⟨_, _, hrun, _, remaining, (nodup_flatMap_filesIn htree hwalk).filter _, hnodup.filter _, ?_,
      hremaining, failed_isFile_runLog fs order, ?_⟩
    · intro p
      rw [List.mem_filter, mem_flatMap_filesIn hwalk, Bool.not_eq_true', Status.isOk_eq_false_iff]
    · rw [hcount, hnone.mpr hlisted, Nat.zero_add]

/-- **The counters are right exactly if no listing fails.** -/
theorem undeleted_iff (fs : FileSystem) (dirname : Bytes) (hexists : fs.fileExists dirname = true)
    (htree : DirectoryTree fs.isDir (listing fs) dirname) :
    CountsRemaining fs dirname ↔ ∀ dir, DiscoveredDir fs dirname dir → (fs.getChildren dir).1 = .ok := by
  obtain ⟨order, hwalk⟩ := exists_walk_root htree
  rw [countsRemaining_iff hexists htree hwalk]
  exact forall_congr' fun dir => imp_congr_left (mem_walk_root hwalk dir)

/-- `d` and the file in it are gone. -/
theorem undeleted_disk :
    CountsRemaining (disk [[0x66]] .ok .ok) [0x64] ↔
      ∀ dir, DiscoveredDir (disk [[0x66]] .ok .ok) [0x64] dir →
        ((disk [[0x66]] .ok .ok).getChildren dir).1 = .ok :=
  undeleted_iff (disk [[0x66]] .ok .ok) [0x64] rfl
    (directoryTree_of_leaf (by decide) (by decide) (by decide))

/-- `d` can be neither listed nor deleted: it is one directory, and counts as two. -/
theorem undeleted_locked :
    (disk [] (.error .permissionDenied "d") (.error .failedPrecondition "d")).fileExists [0x64] = true ∧
    DirectoryTree (disk [] (.error .permissionDenied "d") (.error .failedPrecondition "d")).isDir
      (listing (disk [] (.error .permissionDenied "d") (.error .failedPrecondition "d"))) [0x64] ∧
    ¬ CountsRemaining (disk [] (.error .permissionDenied "d") (.error .failedPrecondition "d")) [0x64] := by
  have htree : DirectoryTree (disk [] (.error .permissionDenied "d") (.error .failedPrecondition "d")).isDir
      (listing (disk [] (.error .permissionDenied "d") (.error .failedPrecondition "d"))) [0x64] :=
    directoryTree_of_leaf (by decide) (by decide) (by decide)
  refine ⟨rfl, htree, fun hcounts => ?_⟩
  have hwalk : Walk (subdirectories
      (disk [] (.error .permissionDenied "d") (.error .failedPrecondition "d")).isDir
      (listing (disk [] (.error .permissionDenied "d") (.error .failedPrecondition "d")))) [[0x64]] [[0x64]] :=
    .visit .done
  have hlisted := (countsRemaining_iff rfl htree hwalk).mp hcounts [0x64] List.mem_cons_self
  cases hlisted

end LearnNetlib
