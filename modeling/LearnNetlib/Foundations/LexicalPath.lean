import Mathlib.Data.List.Basic
import Mathlib.Data.List.Induction
import Mathlib.Tactic.Common

/-!
# Lexical normalisation of paths

Paths over any alphabet with a separator `sep` and a letter `dot`; `[dot, dot]` leads up.

* `components`, `resolve`, `kept`, `normalForm` — the normalisation, as it is usually described in words;
* `visit`, `keepsLast` — the same over all parts of a split path, and whether the last one is kept;
* `Resolved` — the shape of what is kept: names above a run of ups, which a rooted path has none of;
* `resolve_cons`, `resolve_up_cons`, `resolve_up_replicate` — one component on a list of that shape;
* `components_append_sep`, `components_dropWhile`, `keepsLast_append_sep`, `keepsLast_dropWhile` —
  splitting a path from the left;
* **`normalForm_normalForm`** — normalisation is idempotent.
-/

namespace LearnNetlib.LexicalPath

variable {α : Type*} [DecidableEq α] (sep dot : α)

/-! ### The normalisation -/

/-- The components of a path, without the empty ones and the dots. -/
def components (p : List α) : List (List α) :=
  (p.splitOn sep).filter fun c => c ≠ [] ∧ c ≠ [dot]

/-- One component more; the latest of those kept comes first.  An up cancels the latest that is none,
is dropped at a root, and kept elsewhere. -/
def resolve (rooted : Bool) (kept : List (List α)) (c : List α) : List (List α) :=
  if c = [dot, dot] then
    if ∃ d ∈ kept, d ≠ [dot, dot] then kept.eraseP fun d => d ≠ [dot, dot]
    else if rooted then kept else c :: kept
  else c :: kept

/-- The path begins with a separator. -/
def isRooted (p : List α) : Bool := p.head? = some sep

/-- The components that are kept, the latest first. -/
def kept (p : List α) : List (List α) :=
  (components sep dot p).foldl (resolve dot (isRooted sep p)) []

/-- One component of a split path: the empty ones and the dots change nothing. -/
def visit (rooted : Bool) (kept : List (List α)) (c : List α) : List (List α) :=
  if c ≠ [] ∧ c ≠ [dot] then resolve dot rooted kept c else kept

/-- The last component of a list is kept. -/
def keepsLast (rooted : Bool) : List (List α) → List (List α) → Bool
  | _, [] => false
  | kept, [c] => c ≠ [] ∧ c ≠ [dot] ∧ resolve dot rooted kept c = c :: kept
  | kept, c :: cs => keepsLast rooted (visit dot rooted kept c) cs

/-- Components joined with separators, behind a root if there is one. -/
def render (rooted : Bool) (cs : List (List α)) : List α :=
  (if rooted then [sep] else []) ++ [sep].intercalate cs

/-- The normal form of a path. -/
def normalForm (p : List α) : List α :=
  let text := render sep (isRooted sep p) (kept sep dot p).reverse
  if text = [] then [dot] else text

/-! ### What is kept -/

/-- A component that names something. -/
structure Name (c : List α) : Prop where
  ne_nil : c ≠ []
  ne_dot : c ≠ [dot]
  ne_up : c ≠ [dot, dot]
  sep_notMem : sep ∉ c

/-- Names, above ups that a rooted path does not have. -/
def Resolved (rooted : Bool) (names : List (List α)) (ups : ℕ) : Prop :=
  (∀ c ∈ names, Name sep dot c) ∧ (rooted = true → ups = 0)

variable {sep dot}

theorem resolve_cons {c : List α} (h : c ≠ [dot, dot]) (rooted : Bool) (kept : List (List α)) :
    resolve dot rooted kept c = c :: kept := if_neg h

/-- **An up cancels a name.** -/
theorem resolve_up_cons {d : List α} (h : d ≠ [dot, dot]) (rooted : Bool) (kept : List (List α)) :
    resolve dot rooted (d :: kept) [dot, dot] = kept := by
  rw [resolve, if_pos rfl, if_pos ⟨d, List.mem_cons_self, h⟩, List.eraseP_cons_of_pos (by simpa using h)]

/-- **Among ups only**, an up is dropped at a root and kept elsewhere. -/
theorem resolve_up_replicate (dot : α) (rooted : Bool) (ups : ℕ) :
    resolve dot rooted (List.replicate ups [dot, dot]) [dot, dot]
      = List.replicate (if rooted then ups else ups + 1) [dot, dot] := by
  have hno : ¬ ∃ d ∈ List.replicate ups [dot, dot], d ≠ [dot, dot] := by
    rintro ⟨d, hd, hne⟩
    exact hne (List.eq_of_mem_replicate hd)
  rw [resolve, if_pos rfl, if_neg hno]
  split_ifs
  · rfl
  · rfl

/-- Every list of components leaves one of the shape. -/
theorem exists_resolved (rooted : Bool) {cs : List (List α)}
    (h : ∀ c ∈ cs, c ≠ [] ∧ c ≠ [dot] ∧ sep ∉ c) :
    ∃ names ups, cs.foldl (resolve dot rooted) [] = names ++ List.replicate ups [dot, dot] ∧
      Resolved sep dot rooted names ups := by
  induction cs using List.reverseRecOn with
  | nil => exact ⟨[], 0, rfl, by simp, fun _ => rfl⟩
  | append_singleton cs c ih =>
    obtain ⟨names, ups, hcs, hnames, hups⟩ := ih fun d hd => h d (List.mem_append_left _ hd)
    obtain ⟨hnil, hdot, hsep⟩ := h c (List.mem_append_right _ (List.mem_singleton_self c))
    rw [List.foldl_append, hcs, List.foldl_cons, List.foldl_nil]
    by_cases hup : c = [dot, dot]
    · subst hup
      cases names with
      | nil =>
        refine ⟨[], _, resolve_up_replicate dot rooted ups, by simp, fun hr => ?_⟩
        rw [if_pos hr, hups hr]
      | cons d names =>
        obtain ⟨hd, hnames⟩ := List.forall_mem_cons.mp hnames
        exact ⟨names, ups, resolve_up_cons hd.ne_up rooted _, hnames, hups⟩
    · refine ⟨c :: names, ups, resolve_cons hup rooted _, ?_, hups⟩
      exact List.forall_mem_cons.mpr ⟨⟨hnil, hdot, hup, hsep⟩, hnames⟩

/-! ### Splitting from the left -/

theorem sep_notMem_of_mem_splitOn {p c : List α} (h : c ∈ p.splitOn sep) : sep ∉ c := by
  induction p generalizing c with
  | nil =>
    rw [List.splitOn_nil, List.mem_singleton] at h
    rw [h]
    exact List.not_mem_nil
  | cons x p ih =>
    rw [List.splitOn_cons_eq_if_modifyHead] at h
    split_ifs at h with hx
    · rcases List.mem_cons.mp h with rfl | h
      · exact List.not_mem_nil
      · exact ih h
    · obtain ⟨d, ds, hsplit⟩ := List.exists_cons_of_ne_nil (List.splitOn_ne_nil sep p)
      rw [hsplit, List.modifyHead_cons] at h
      have hmem : ∀ e ∈ d :: ds, sep ∉ e := fun e he => ih (hsplit ▸ he)
      rcases List.mem_cons.mp h with rfl | h
      · rw [List.mem_cons, not_or]
        exact ⟨fun heq => hx (by simp [heq]), hmem d List.mem_cons_self⟩
      · exact hmem c (List.mem_cons_of_mem _ h)

theorem mem_components {p c : List α} (h : c ∈ components sep dot p) :
    c ≠ [] ∧ c ≠ [dot] ∧ sep ∉ c := by
  obtain ⟨hsplit, hc⟩ := List.mem_filter.mp h
  obtain ⟨hnil, hdot⟩ := of_decide_eq_true hc
  exact ⟨hnil, hdot, sep_notMem_of_mem_splitOn hsplit⟩

theorem components_nil : components sep dot [] = [] := by
  rw [components, List.splitOn_nil]
  rfl

theorem components_of_notMem {c : List α} (h : sep ∉ c) :
    components sep dot c = if c ≠ [] ∧ c ≠ [dot] then [c] else [] := by
  rw [components, List.splitOn_eq_singleton h]
  simp only [List.filter_cons, List.filter_nil, decide_eq_true_eq]

/-- **The first component.** -/
theorem components_append_sep {c : List α} (h : sep ∉ c) (p : List α) :
    components sep dot (c ++ sep :: p)
      = (if c ≠ [] ∧ c ≠ [dot] then [c] else []) ++ components sep dot p := by
  rw [components, List.splitOn_append_cons_self_of_not_mem h]
  simp only [List.filter_cons, decide_eq_true_eq]
  split_ifs
  · rfl
  · rfl

/-- Going through all components is going through the split path. -/
theorem foldl_components (rooted : Bool) (kept : List (List α)) (p : List α) :
    (components sep dot p).foldl (resolve dot rooted) kept
      = (p.splitOn sep).foldl (visit dot rooted) kept := by
  rw [components, List.foldl_filter]
  simp only [decide_eq_true_eq]
  rfl

/-- Separators in front do not matter. -/
theorem components_dropWhile (p : List α) :
    components sep dot (p.dropWhile (· = sep)) = components sep dot p := by
  induction p with
  | nil => rfl
  | cons x p ih =>
    by_cases hx : x = sep
    · subst hx
      rw [List.dropWhile_cons_of_pos (by simp), ih]
      exact (components_append_sep (c := []) List.not_mem_nil p).symm
    · rw [List.dropWhile_cons_of_neg (by simpa using hx)]

/-! ### Going through a split path from the left -/

theorem keepsLast_cons {cs : List (List α)} (h : cs ≠ []) (rooted : Bool) (kept : List (List α))
    (c : List α) :
    keepsLast dot rooted kept (c :: cs) = keepsLast dot rooted (visit dot rooted kept c) cs := by
  cases cs with
  | nil => exact absurd rfl h
  | cons d cs => rfl

theorem keepsLast_append_sep {c : List α} (h : sep ∉ c) (rooted : Bool) (kept : List (List α))
    (p : List α) :
    keepsLast dot rooted kept ((c ++ sep :: p).splitOn sep)
      = keepsLast dot rooted (visit dot rooted kept c) (p.splitOn sep) := by
  rw [List.splitOn_append_cons_self_of_not_mem h, keepsLast_cons (List.splitOn_ne_nil sep p)]

/-- Separators in front do not matter. -/
theorem keepsLast_dropWhile (rooted : Bool) (kept : List (List α)) (p : List α) :
    keepsLast dot rooted kept ((p.dropWhile (· = sep)).splitOn sep)
      = keepsLast dot rooted kept (p.splitOn sep) := by
  induction p with
  | nil => rfl
  | cons x p ih =>
    by_cases hx : x = sep
    · subst hx
      rw [List.dropWhile_cons_of_pos (by simp), ih]
      exact (keepsLast_append_sep (c := []) List.not_mem_nil rooted kept p).symm
    · rw [List.dropWhile_cons_of_neg (by simpa using hx)]

/-- What is kept last is kept. -/
theorem foldl_visit_ne_nil {rooted : Bool} {kept cs : List (List α)}
    (h : keepsLast dot rooted kept cs = true) : cs.foldl (visit dot rooted) kept ≠ [] := by
  induction cs generalizing kept with
  | nil => exact absurd h (by simp [keepsLast])
  | cons c cs ih =>
    cases cs with
    | nil =>
      obtain ⟨hnil, hdot, hkept⟩ := of_decide_eq_true h
      rw [List.foldl_cons, List.foldl_nil, visit, if_pos ⟨hnil, hdot⟩, hkept]
      exact List.cons_ne_nil _ _
    | cons d cs => exact ih h

/-! ### Idempotence -/

/-- A resolved list resolves to itself. -/
theorem foldl_resolve_reverse {rooted : Bool} {names : List (List α)} {ups : ℕ}
    (h : Resolved sep dot rooted names ups) :
    (names ++ List.replicate ups [dot, dot]).reverse.foldl (resolve dot rooted) []
      = names ++ List.replicate ups [dot, dot] := by
  obtain ⟨hnames, hups⟩ := h
  have hreplicate : (List.replicate ups [dot, dot]).foldl (resolve dot rooted) []
      = List.replicate ups [dot, dot] := by
    cases rooted with
    | true =>
      rw [hups rfl]
      rfl
    | false =>
      clear hups
      induction ups with
      | zero => rfl
      | succ ups ih =>
        rw [List.replicate_succ', List.foldl_append, ih, List.foldl_cons, List.foldl_nil,
          resolve_up_replicate, ← List.replicate_succ']
        rfl
  rw [List.reverse_append, List.reverse_replicate, List.foldl_append, hreplicate]
  induction names with
  | nil => rfl
  | cons c names ih =>
    obtain ⟨hc, hnames⟩ := List.forall_mem_cons.mp hnames
    rw [List.reverse_cons, List.foldl_append, ih hnames, List.foldl_cons, List.foldl_nil,
      resolve_cons hc.ne_up, List.cons_append]

theorem kept_resolved (sep dot : α) (p : List α) :
    ∃ names ups, kept sep dot p = names ++ List.replicate ups [dot, dot] ∧
      Resolved sep dot (isRooted sep p) names ups :=
  exists_resolved _ fun _ hc => mem_components hc

theorem mem_resolve {rooted : Bool} {kept : List (List α)} {c d : List α}
    (h : d ∈ resolve dot rooted kept c) : d = c ∨ d ∈ kept := by
  rw [resolve] at h
  split_ifs at h
  · exact .inr (List.mem_of_mem_eraseP h)
  · exact .inr h
  · exact List.mem_cons.mp h
  · exact List.mem_cons.mp h

/-- What is kept are components. -/
theorem mem_components_of_mem_kept {p c : List α} (h : c ∈ kept sep dot p) :
    c ∈ components sep dot p := by
  rw [kept] at h
  generalize isRooted sep p = rooted at h
  generalize components sep dot p = cs at h
  induction cs using List.reverseRecOn with
  | nil => exact h
  | append_singleton cs d ih =>
    rw [List.foldl_append, List.foldl_cons, List.foldl_nil] at h
    rcases mem_resolve h with rfl | h
    · exact List.mem_append_right _ (List.mem_singleton_self c)
    · exact List.mem_append_left _ (ih h)

theorem components_intercalate {cs : List (List α)}
    (h : ∀ c ∈ cs, c ≠ [] ∧ c ≠ [dot] ∧ sep ∉ c) :
    components sep dot ([sep].intercalate cs) = cs := by
  by_cases hcs : cs = []
  · rw [hcs, List.intercalate_nil, components_nil]
  · rw [components, List.splitOn_intercalate sep (fun c hc => (h c hc).2.2) hcs, List.filter_eq_self]
    exact fun c hc => decide_eq_true ⟨(h c hc).1, (h c hc).2.1⟩

omit [DecidableEq α] in
/-- With a separator behind every component, the text has one more. -/
theorem flatMap_append_sep {cs : List (List α)} (h : cs ≠ []) :
    cs.flatMap (· ++ [sep]) = [sep].intercalate cs ++ [sep] := by
  induction cs with
  | nil => exact absurd rfl h
  | cons c cs ih =>
    cases cs with
    | nil => rw [List.intercalate_singleton]; simp
    | cons d cs => rw [List.flatMap_cons, ih (List.cons_ne_nil d cs), List.intercalate_cons_cons,
        List.append_assoc, List.append_assoc, List.append_assoc]

omit [DecidableEq α] in
/-- A joined text ends as its last component does. -/
theorem getLast?_intercalate {cs : List (List α)} (h : ∀ c ∈ cs, c ≠ [] ∧ sep ∉ c) :
    ([sep].intercalate cs).getLast? ≠ some sep := by
  induction cs with
  | nil => simp [List.intercalate_nil]
  | cons c cs ih =>
    obtain ⟨⟨hnil, hsep⟩, hcs⟩ := List.forall_mem_cons.mp h
    cases cs with
    | nil =>
      rw [List.intercalate_singleton]
      exact fun hlast => hsep (List.mem_of_getLast? hlast)
    | cons d cs =>
      rw [List.intercalate_cons_cons, List.getLast?_append_of_ne_nil]
      · exact ih hcs
      · obtain ⟨x, d, rfl⟩ := List.exists_cons_of_ne_nil (hcs d List.mem_cons_self).1
        cases cs with
        | nil => simp [List.intercalate_singleton]
        | cons e cs => simp [List.intercalate_cons_cons]

theorem render_ne_nil (rooted : Bool) {cs : List (List α)}
    (h : ∀ c ∈ cs, c ≠ [] ∧ c ≠ [dot] ∧ sep ∉ c) (hcs : cs ≠ []) : render sep rooted cs ≠ [] := by
  intro hempty
  have hjoined := (List.append_eq_nil_iff.mp hempty).2
  have hsplit := components_intercalate h
  rw [hjoined, components_nil] at hsplit
  exact hcs hsplit.symm

theorem getLast?_render (rooted : Bool) {cs : List (List α)}
    (h : ∀ c ∈ cs, c ≠ [] ∧ c ≠ [dot] ∧ sep ∉ c) (hcs : cs ≠ []) :
    (render sep rooted cs).getLast? ≠ some sep := by
  have hjoined : [sep].intercalate cs ≠ [] := render_ne_nil false h hcs
  rw [render, List.getLast?_append_of_ne_nil _ hjoined]
  exact getLast?_intercalate fun c hc => ⟨(h c hc).1, (h c hc).2.2⟩

/-- A list that is not rooted does not begin with a separator. -/
theorem isRooted_render (rooted : Bool) {cs : List (List α)} (h : ∀ c ∈ cs, c ≠ [] ∧ sep ∉ c) :
    isRooted sep (render sep rooted cs) = rooted := by
  cases rooted with
  | true => exact decide_eq_true rfl
  | false =>
    rw [isRooted, decide_eq_false_iff_not, render, if_neg (by decide), List.nil_append]
    cases cs with
    | nil => simp [List.intercalate_nil]
    | cons c cs =>
      obtain ⟨hnil, hsep⟩ := h c List.mem_cons_self
      obtain ⟨x, c, rfl⟩ := List.exists_cons_of_ne_nil hnil
      have hx : x ≠ sep := fun heq => hsep (heq ▸ List.mem_cons_self)
      cases cs with
      | nil => simp [List.intercalate_singleton, hx]
      | cons d cs => simp [List.intercalate_cons_cons, hx]

theorem components_render (rooted : Bool) {cs : List (List α)}
    (h : ∀ c ∈ cs, c ≠ [] ∧ c ≠ [dot] ∧ sep ∉ c) :
    components sep dot (render sep rooted cs) = cs := by
  rw [render]
  cases rooted with
  | true =>
    rw [if_pos rfl]
    exact (components_append_sep (c := []) List.not_mem_nil _).trans (components_intercalate h)
  | false => exact components_intercalate h

/-- **Normal forms are normal.** -/
theorem normalForm_normalForm (hne : sep ≠ dot) (p : List α) :
    normalForm sep dot (normalForm sep dot p) = normalForm sep dot p := by
  have hmem : ∀ c ∈ (kept sep dot p).reverse, c ≠ [] ∧ c ≠ [dot] ∧ sep ∉ c :=
    fun c hc => mem_components (mem_components_of_mem_kept (List.mem_reverse.mp hc))
  by_cases hempty : render sep (isRooted sep p) (kept sep dot p).reverse = []
  · rw [show normalForm sep dot p = [dot] from if_pos hempty]
    -- a single dot is dropped again
    have hdot : kept sep dot [dot] = [] := by
      rw [kept, components_of_notMem (by simpa using hne), if_neg (by simp), List.foldl_nil]
    rw [normalForm, hdot, isRooted, List.head?_cons, decide_eq_false (by simpa using hne.symm)]
    rfl
  · obtain ⟨names, ups, hkept, hresolved⟩ := kept_resolved sep dot p
    have hrooted := isRooted_render (isRooted sep p) fun c hc => ⟨(hmem c hc).1, (hmem c hc).2.2⟩
    have hagain : kept sep dot (render sep (isRooted sep p) (kept sep dot p).reverse)
        = kept sep dot p := by
      rw [kept, hrooted, components_render _ hmem, hkept, foldl_resolve_reverse hresolved]
    rw [show normalForm sep dot p = _ from if_neg hempty, normalForm, hrooted, hagain]
    exact if_neg hempty

/-! ### Letters -/

theorem mem_of_mem_splitOn {p c : List α} (h : c ∈ p.splitOn sep) : ∀ x ∈ c, x ∈ p := by
  intro x hx
  rw [show p = [sep].intercalate (p.splitOn sep) from (List.intercalate_splitOn sep).symm]
  generalize p.splitOn sep = cs at h
  induction cs with
  | nil => exact absurd h List.not_mem_nil
  | cons d cs ih =>
    rcases List.mem_cons.mp h with rfl | h
    · cases cs with
      | nil => rwa [List.intercalate_singleton]
      | cons e cs =>
        rw [List.intercalate_cons_cons, List.append_assoc]
        exact List.mem_append_left _ hx
    · obtain ⟨e, cs, rfl⟩ := List.exists_cons_of_ne_nil (List.ne_nil_of_mem h)
      rw [List.intercalate_cons_cons]
      exact List.mem_append_right _ (ih h)

/-- A normal form has no letters of its own but a separator and a dot. -/
theorem mem_normalForm {p : List α} {x : α} (h : x ∈ normalForm sep dot p) :
    x = sep ∨ x = dot ∨ x ∈ p := by
  have hjoined : ∀ cs : List (List α), x ∈ [sep].intercalate cs → x = sep ∨ ∃ c ∈ cs, x ∈ c := by
    intro cs hx
    induction cs with
    | nil => exact absurd hx (by simp [List.intercalate_nil])
    | cons c cs ih =>
      cases cs with
      | nil => exact .inr ⟨c, List.mem_cons_self, by rwa [List.intercalate_singleton] at hx⟩
      | cons d cs =>
        rw [List.intercalate_cons_cons] at hx
        rcases List.mem_append.mp hx with hx | hx
        · rcases List.mem_append.mp hx with hx | hx
          · exact .inr ⟨c, List.mem_cons_self, hx⟩
          · exact .inl (List.mem_singleton.mp hx)
        · rcases ih hx with hx | ⟨e, he, hx⟩
          · exact .inl hx
          · exact .inr ⟨e, List.mem_cons_of_mem _ he, hx⟩
  by_cases hempty : render sep (isRooted sep p) (kept sep dot p).reverse = []
  · rw [show normalForm sep dot p = [dot] from if_pos hempty] at h
    exact .inr (.inl (List.mem_singleton.mp h))
  · rw [show normalForm sep dot p = _ from if_neg hempty, render] at h
    rcases List.mem_append.mp h with h | h
    · split_ifs at h
      · exact .inl (List.mem_singleton.mp h)
      · exact absurd h List.not_mem_nil
    · rcases hjoined _ h with h | ⟨c, hc, hx⟩
      · exact .inl h
      · have hcomponent := mem_components_of_mem_kept (List.mem_reverse.mp hc)
        exact .inr (.inr (mem_of_mem_splitOn (List.mem_filter.mp hcomponent).1 x hx))

end LearnNetlib.LexicalPath
