import Mathlib.Order.Lattice
import Mathlib.Data.List.Basic
import Mathlib.Data.List.Pairwise
import Mathlib.Tactic.Common

/-!
# Cursors over sorted lists, and lists cut into separated groups

The reference a sorted-table iterator is measured against: a position is the list of entries still
in front of it.

* `seekTo` — the entries from the first key not below the target on; `head?_seekTo`, `mem_seekTo_iff`;
* `cursorStep`, `permitted` — the cursor as a state machine;
* `Separated` — groups of entries, each with a separator at or above its keys and below all later
  ones;
* **`seekTo_flatMap`** — in separated groups, seeking among the separators and then inside one group
  is seeking in the whole list;
* `lookup` — one group only: `lookup_of_mem`, `lookup_least`.
-/

namespace LearnNetlib.SortedCursor

variable {κ ν η : Type*}

/-! ### Groups -/

/-- All entries of the groups. -/
def contents (f : η → List (κ × ν)) (bs : List (κ × η)) : List (κ × ν) :=
  bs.flatMap fun b => f b.2

@[simp] theorem contents_nil (f : η → List (κ × ν)) : contents f [] = [] := rfl

@[simp] theorem contents_cons (f : η → List (κ × ν)) (b : κ × η) (bs : List (κ × η)) :
    contents f (b :: bs) = f b.2 ++ contents f bs := List.flatMap_cons

theorem contents_append (f : η → List (κ × ν)) (as bs : List (κ × η)) :
    contents f (as ++ bs) = contents f as ++ contents f bs := List.flatMap_append

theorem mem_contents {f : η → List (κ × ν)} {bs : List (κ × η)} {e : κ × ν} :
    e ∈ contents f bs ↔ ∃ b ∈ bs, e ∈ f b.2 := List.mem_flatMap

/-- Groups under other names. -/
theorem contents_map {η' : Type*} {f : η' → List (κ × ν)} {f' : η → List (κ × ν)} {g : η → η'}
    {bs : List (κ × η)} (h : ∀ b ∈ bs, f (g b.2) = f' b.2) :
    contents f (bs.map fun b => (b.1, g b.2)) = contents f' bs := by
  induction bs with
  | nil => rfl
  | cons b bs ih =>
    rw [List.map_cons, contents_cons, contents_cons, h b List.mem_cons_self,
      ih fun c hc => h c (List.mem_cons_of_mem _ hc)]

variable [LinearOrder κ]

/-! ### Sorted lists -/

/-- Keys strictly increase. -/
def Sorted (es : List (κ × ν)) : Prop := es.Pairwise fun a b => a.1 < b.1

theorem sorted_append_iff {as bs : List (κ × ν)} :
    Sorted (as ++ bs) ↔ Sorted as ∧ Sorted bs ∧ ∀ a ∈ as, ∀ b ∈ bs, a.1 < b.1 :=
  List.pairwise_append

/-- The last key of a sorted list is the largest. -/
theorem Sorted.le_of_getLast? {es : List (κ × ν)} (h : Sorted es) {l : κ × ν}
    (hl : es.getLast? = some l) : ∀ e ∈ es, e.1 ≤ l.1 := by
  obtain ⟨es, rfl⟩ := List.getLast?_eq_some_iff.mp hl
  intro e he
  rcases List.mem_append.mp he with he | he
  · exact ((sorted_append_iff.mp h).2.2 e he l List.mem_cons_self).le
  · rw [List.mem_singleton.mp he]

/-- The entries from the first key at or above `t` on. -/
def seekTo (t : κ) (es : List (κ × ν)) : List (κ × ν) := es.dropWhile fun e => decide (e.1 < t)

@[simp] theorem seekTo_nil (t : κ) : seekTo t ([] : List (κ × ν)) = [] := rfl

theorem seekTo_cons_of_lt {t : κ} {e : κ × ν} (h : e.1 < t) (es : List (κ × ν)) :
    seekTo t (e :: es) = seekTo t es :=
  List.dropWhile_cons_of_pos (decide_eq_true h)

theorem seekTo_cons_of_le {t : κ} {e : κ × ν} (h : t ≤ e.1) (es : List (κ × ν)) :
    seekTo t (e :: es) = e :: es :=
  List.dropWhile_cons_of_neg (by simpa using h)

/-- Entries below the target are passed over. -/
theorem seekTo_append_of_lt {t : κ} {as : List (κ × ν)} (h : ∀ a ∈ as, a.1 < t)
    (bs : List (κ × ν)) : seekTo t (as ++ bs) = seekTo t bs := by
  induction as with
  | nil => rfl
  | cons a as ih =>
    rw [List.cons_append, seekTo_cons_of_lt (h a List.mem_cons_self),
      ih fun x hx => h x (List.mem_cons_of_mem _ hx)]

/-- Nothing is passed over when no key is below the target. -/
theorem seekTo_eq_self {t : κ} {es : List (κ × ν)} (h : ∀ e ∈ es, t ≤ e.1) : seekTo t es = es := by
  cases es with
  | nil => rfl
  | cons e es => exact seekTo_cons_of_le (h e List.mem_cons_self) es

theorem seekTo_append {t : κ} (as bs : List (κ × ν)) (h : ∀ b ∈ bs, t ≤ b.1) :
    seekTo t (as ++ bs) = seekTo t as ++ bs := by
  induction as with
  | nil => exact seekTo_eq_self h
  | cons a as ih =>
    rcases lt_or_ge a.1 t with hlt | hge
    · rw [List.cons_append, seekTo_cons_of_lt hlt, seekTo_cons_of_lt hlt, ih]
    · rw [List.cons_append, seekTo_cons_of_le hge, seekTo_cons_of_le hge, List.cons_append]

theorem seekTo_suffix (t : κ) (es : List (κ × ν)) : seekTo t es <:+ es := List.dropWhile_suffix _

/-- The cursor stands on the first entry whose key is at or above the target. -/
theorem head?_seekTo (t : κ) (es : List (κ × ν)) :
    (seekTo t es).head? = es.find? fun e => decide (t ≤ e.1) := by
  induction es with
  | nil => rfl
  | cons e es ih =>
    rcases lt_or_ge e.1 t with hlt | hge
    · rw [seekTo_cons_of_lt hlt, ih, List.find?_cons_of_neg (by simpa using hlt)]
    · rw [seekTo_cons_of_le hge, List.find?_cons_of_pos (by simpa using hge), List.head?_cons]

/-- In a sorted list the entries in front of the cursor are all those at or above the target. -/
theorem mem_seekTo_iff {t : κ} {es : List (κ × ν)} (hs : Sorted es) (e : κ × ν) :
    e ∈ seekTo t es ↔ e ∈ es ∧ t ≤ e.1 := by
  induction es with
  | nil => simp
  | cons a es ih =>
    obtain ⟨ha, hes⟩ := List.pairwise_cons.mp hs
    rcases lt_or_ge a.1 t with hlt | hge
    · rw [seekTo_cons_of_lt hlt, ih hes, List.mem_cons]
      constructor
      · exact fun h => ⟨.inr h.1, h.2⟩
      · rintro ⟨rfl | h, hle⟩
        · exact absurd hlt (not_lt.mpr hle)
        · exact ⟨h, hle⟩
    · rw [seekTo_cons_of_le hge]
      refine ⟨fun h => ⟨h, ?_⟩, And.left⟩
      rcases List.mem_cons.mp h with rfl | h
      · exact hge
      · exact hge.trans (ha e h).le

/-- A higher target leaves less in front of the cursor. -/
theorem seekTo_suffix_of_le {t t' : κ} (h : t ≤ t') (es : List (κ × ν)) :
    seekTo t' es <:+ seekTo t es := by
  induction es with
  | nil => exact List.suffix_rfl
  | cons e es ih =>
    rcases lt_or_ge e.1 t with hlt | hge
    · rw [seekTo_cons_of_lt hlt, seekTo_cons_of_lt (hlt.trans_le h)]
      exact ih
    · rw [seekTo_cons_of_le hge]
      exact seekTo_suffix t' (e :: es)

/-- Seeking does not look at the values. -/
theorem seekTo_map {ν' : Type*} (g : ν → ν') (t : κ) (es : List (κ × ν)) :
    seekTo t (es.map fun e => (e.1, g e.2)) = (seekTo t es).map fun e => (e.1, g e.2) :=
  List.dropWhile_map

/-- A key that is there is found. -/
theorem head?_seekTo_of_mem {t : κ} {v : ν} {es : List (κ × ν)} (hs : Sorted es)
    (hmem : (t, v) ∈ es) : (seekTo t es).head? = some (t, v) := by
  induction es with
  | nil => exact absurd hmem (by simp)
  | cons e es ih =>
    obtain ⟨he, hes⟩ := List.pairwise_cons.mp hs
    rcases List.mem_cons.mp hmem with rfl | hmem
    · rw [seekTo_cons_of_le (show t ≤ (t, v).1 from le_rfl), List.head?_cons]
    · rw [seekTo_cons_of_lt (show e.1 < t from he _ hmem)]
      exact ih hes hmem

/-! ### The cursor as a state machine -/

inductive Op (κ : Type*)
  | seekToFirst
  | seek (target : κ)
  | next

/-- One operation over `es` from the position `rest`; it shows the entry it lands on. -/
def cursorStep (es rest : List (κ × ν)) : Op κ → Option (κ × ν) × List (κ × ν)
  | .seekToFirst => (es.head?, es)
  | .seek t => ((seekTo t es).head?, seekTo t es)
  | .next => (rest.tail.head?, rest.tail)

/-- `next` needs an entry to leave. -/
def permitted (rest : List (κ × ν)) : Op κ → Prop
  | .next => rest ≠ []
  | _ => True

/-! ### Separated groups -/

/-- The groups `f` of `bs` lie one after the other, each at or below its separator, and every
separator below the groups after it. -/
def Separated (f : η → List (κ × ν)) : List (κ × η) → Prop
  | [] => True
  | b :: bs =>
    (∀ e ∈ f b.2, e.1 ≤ b.1) ∧ (∀ c ∈ bs, ∀ e ∈ f c.2, b.1 < e.1) ∧ Separated f bs

/-- One more group behind the others. -/
theorem separated_snoc {f : η → List (κ × ν)} {bs : List (κ × η)} {b : κ × η} (h : Separated f bs)
    (hlt : ∀ c ∈ bs, ∀ e ∈ f b.2, c.1 < e.1) (hle : ∀ e ∈ f b.2, e.1 ≤ b.1) :
    Separated f (bs ++ [b]) := by
  induction bs with
  | nil => exact ⟨hle, by simp, trivial⟩
  | cons c bs ih =>
    obtain ⟨hcle, hclt, hrest⟩ := h
    refine ⟨hcle, ?_, ih hrest fun d hd => hlt d (List.mem_cons_of_mem _ hd)⟩
    intro d hd
    rcases List.mem_append.mp hd with hd | hd
    · exact hclt d hd
    · rw [List.mem_singleton.mp hd]
      exact hlt c List.mem_cons_self

theorem Separated.le {f : η → List (κ × ν)} {bs : List (κ × η)} (h : Separated f bs) :
    ∀ b ∈ bs, ∀ e ∈ f b.2, e.1 ≤ b.1 := by
  induction bs with
  | nil => simp
  | cons b bs ih => exact List.forall_mem_cons.mpr ⟨h.1, ih h.2.2⟩

/-- A separator is below all groups after its own. -/
theorem Separated.pairwise {f : η → List (κ × ν)} {bs : List (κ × η)} (h : Separated f bs) :
    bs.Pairwise fun b c => ∀ e ∈ f c.2, b.1 < e.1 := by
  induction bs with
  | nil => exact List.Pairwise.nil
  | cons b bs ih => exact List.pairwise_cons.mpr ⟨h.2.1, ih h.2.2⟩

/-- Separated groups under other names. -/
theorem separated_map {η' : Type*} {f : η' → List (κ × ν)} {f' : η → List (κ × ν)} {g : η → η'}
    {bs : List (κ × η)} (h : ∀ b ∈ bs, f (g b.2) = f' b.2) (hs : Separated f' bs) :
    Separated f (bs.map fun b => (b.1, g b.2)) := by
  induction bs with
  | nil => trivial
  | cons b bs ih =>
    obtain ⟨hle, hlt, hrest⟩ := hs
    refine ⟨?_, ?_, ih (fun c hc => h c (List.mem_cons_of_mem _ hc)) hrest⟩
    · rw [h b List.mem_cons_self]
      exact hle
    · intro c' hc'
      obtain ⟨c, hc, rfl⟩ := List.mem_map.mp hc'
      rw [h c (List.mem_cons_of_mem _ hc)]
      exact hlt c hc

/-- What is left after seeking among the separators and then inside the group found. -/
def seekGroups (f : η → List (κ × ν)) (t : κ) (bs : List (κ × η)) : List (κ × ν) :=
  match seekTo t bs with
  | [] => []
  | b :: rest => seekTo t (f b.2) ++ contents f rest

/-- **Seeking in two levels is seeking in the whole list.** -/
theorem seekTo_flatMap {f : η → List (κ × ν)} {bs : List (κ × η)} (h : Separated f bs) (t : κ) :
    seekTo t (contents f bs) = seekGroups f t bs := by
  induction bs with
  | nil => rfl
  | cons b bs ih =>
    obtain ⟨hle, hlt, hrest⟩ := h
    rw [contents_cons]
    rcases lt_or_ge b.1 t with hb | hb
    · -- the whole group is below the target
      rw [seekTo_append_of_lt fun e he => (hle e he).trans_lt hb, ih hrest, seekGroups, seekGroups,
        seekTo_cons_of_lt hb]
    · -- the target is in this group or right behind it
      have hlater : ∀ e ∈ contents f bs, t ≤ e.1 := by
        intro e he
        obtain ⟨c, hc, hec⟩ := mem_contents.mp he
        exact hb.trans (hlt c hc e hec).le
      rw [seekTo_append _ _ hlater, seekGroups, seekTo_cons_of_le hb]

/-- Looking for `t` in one group only: the first whose separator is not below it. -/
def lookup (f : η → List (κ × ν)) (t : κ) (bs : List (κ × η)) : Option (κ × ν) :=
  match seekTo t bs with
  | [] => none
  | b :: _ => (seekTo t (f b.2)).head?

/-- **A key that is there is in the one group looked at.** -/
theorem lookup_of_mem {f : η → List (κ × ν)} {bs : List (κ × η)} (h : Separated f bs)
    (hs : Sorted (contents f bs)) {t : κ} {v : ν} (hmem : (t, v) ∈ contents f bs) :
    lookup f t bs = some (t, v) := by
  induction bs with
  | nil => exact absurd hmem (by simp)
  | cons b bs ih =>
    obtain ⟨hle, hlt, hrest⟩ := h
    rw [contents_cons, sorted_append_iff] at hs
    rw [contents_cons] at hmem
    rw [lookup]
    rcases List.mem_append.mp hmem with hmem | hmem
    · rw [seekTo_cons_of_le (hle _ hmem)]
      exact head?_seekTo_of_mem hs.1 hmem
    · -- the separator of the first group is below the key
      obtain ⟨c, hc, hec⟩ := mem_contents.mp hmem
      rw [seekTo_cons_of_lt (show b.1 < t from hlt c hc _ hec)]
      exact ih hrest hs.2.1 hmem

/-- **What is found is the first entry not below the key**, though it is not always found. -/
theorem lookup_least {f : η → List (κ × ν)} {bs : List (κ × η)} (h : Separated f bs)
    (hs : Sorted (contents f bs)) {t : κ} {e : κ × ν} (hl : lookup f t bs = some e) :
    e ∈ contents f bs ∧ t ≤ e.1 ∧ ∀ e' ∈ contents f bs, t ≤ e'.1 → e.1 ≤ e'.1 := by
  have hseek := seekTo_flatMap h t
  rw [seekGroups] at hseek
  rw [lookup] at hl
  cases hbs : seekTo t bs with
  | nil => simp [hbs] at hl
  | cons b rest =>
    simp only [hbs] at hl hseek
    obtain ⟨tail, htail⟩ := List.head?_eq_some_iff.mp hl
    rw [htail, List.cons_append] at hseek
    have hmem := fun e' => mem_seekTo_iff hs (t := t) e'
    rw [hseek] at hmem
    obtain ⟨hin, hle⟩ := (hmem e).mp List.mem_cons_self
    refine ⟨hin, hle, ?_⟩
    intro e' he' hle'
    have hsuffix : Sorted (e :: (tail ++ contents f rest)) := by
      rw [← hseek]
      exact hs.sublist (seekTo_suffix t _).sublist
    rcases List.mem_cons.mp ((hmem e').mpr ⟨he', hle'⟩) with rfl | hbehind
    · exact le_rfl
    · exact ((List.pairwise_cons.mp hsuffix).1 e' hbehind).le

/-- A cursor over groups as a state machine, seeking in two levels. -/
def groupsStep (f : η → List (κ × ν)) (bs : List (κ × η)) (rest : List (κ × ν)) :
    Op κ → Option (κ × ν) × List (κ × ν)
  | .seekToFirst => ((contents f bs).head?, contents f bs)
  | .seek t => ((seekGroups f t bs).head?, seekGroups f t bs)
  | .next => (rest.tail.head?, rest.tail)

end LearnNetlib.SortedCursor
