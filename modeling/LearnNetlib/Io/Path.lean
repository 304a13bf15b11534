import LearnNetlib.Base.Bytes
import Mathlib.Algebra.BigOperators.Group.List.Basic

/-!
# Joining paths (`base/io/path.cc`)

* `isAbsolutePath`, `joinPathImpl` — the code; `joinStep` is a turn of its loop;
* `joinStep_assoc` and the monoid `Joined` — joining is associative, the empty string its unit, and
  `joinPathImpl` is the product of a list in this monoid;
* `doubled`, `doubled_joinStep` — joining neither adds nor removes doubled separators;
* **`joinPath_monoid`** — grouping does not matter, and what happens at a seam.
-/

namespace LearnNetlib.Path

/-- `'/'`. -/
def slash : UInt8 := 0x2f

/-! ### The code -/

/-- `IsAbsolutePath`. -/
def isAbsolutePath (path : Bytes) : Bool := path.head? = some slash

/-- A turn of the loop of `JoinPathImpl`. -/
def joinStep (result path : Bytes) : Bytes :=
  if path = [] then result
  else if result = [] then path
  else if result.getLast? = some slash then
    if isAbsolutePath path then result ++ path.drop 1 else result ++ path
  else
    if isAbsolutePath path then result ++ path else result ++ ([slash] ++ path)

/-- `JoinPathImpl`. -/
def joinPathImpl (paths : List Bytes) : Bytes := paths.foldl joinStep []

/-! ### Grouping -/

@[simp] theorem joinStep_nil_right (a : Bytes) : joinStep a [] = a := if_pos rfl

@[simp] theorem joinStep_nil_left (a : Bytes) : joinStep [] a = a := by
  by_cases h : a = []
  · rw [h, joinStep_nil_right]
  · rw [joinStep, if_neg h, if_pos rfl]

/-- What is appended for a path behind a text that ends in a separator, or does not. -/
def appended (ends : Bool) (path : Bytes) : Bytes :=
  if ends then if isAbsolutePath path then path.drop 1 else path
  else if isAbsolutePath path then path else slash :: path

theorem joinStep_eq {a b : Bytes} (ha : a ≠ []) (hb : b ≠ []) :
    joinStep a b = a ++ appended (a.getLast? = some slash) b := by
  rw [joinStep, if_neg hb, if_neg ha, appended]
  simp only [decide_eq_true_eq]
  split_ifs <;> rfl

theorem appended_append {b : Bytes} (ends : Bool) (hb : b ≠ []) (c : Bytes) :
    appended ends (b ++ c) = appended ends b ++ c := by
  obtain ⟨x, b, rfl⟩ := List.exists_cons_of_ne_nil hb
  rw [appended, appended, show isAbsolutePath (x :: b ++ c) = isAbsolutePath (x :: b) from rfl]
  split_ifs <;> rfl

/-- The joined text ends as its last part does. -/
theorem getLast?_joined {a b : Bytes} (hb : b ≠ []) :
    (a ++ appended (a.getLast? = some slash) b).getLast? = some slash ↔ b.getLast? = some slash := by
  obtain ⟨x, b, rfl⟩ := List.exists_cons_of_ne_nil hb
  have hlast : ∀ (l : Bytes), (l ++ x :: b).getLast? = (x :: b).getLast? :=
    fun l => List.getLast?_append_of_ne_nil l (List.cons_ne_nil x b)
  by_cases hends : a.getLast? = some slash
  · by_cases hx : x = slash
    · -- one separator of two is left; it is the end of `a` if there is nothing else
      subst hx
      have happ : appended (a.getLast? = some slash) (slash :: b) = b := by
        rw [decide_eq_true hends]
        rfl
      rw [happ]
      cases b with
      | nil => simp [hends]
      | cons y b => rw [List.getLast?_append_of_ne_nil a (List.cons_ne_nil y b), List.getLast?_cons_cons]
    · have happ : appended (a.getLast? = some slash) (x :: b) = x :: b := by
        simp [appended, hends, isAbsolutePath, hx]
      rw [happ, hlast]
  · by_cases hx : x = slash
    · have happ : appended (a.getLast? = some slash) (x :: b) = x :: b := by
        simp [appended, hends, isAbsolutePath, hx]
      rw [happ, hlast]
    · have happ : appended (a.getLast? = some slash) (x :: b) = [slash] ++ x :: b := by
        simp [appended, hends, isAbsolutePath, hx]
      rw [happ, ← List.append_assoc, hlast]

/-- **Joining is associative.** -/
theorem joinStep_assoc (a b c : Bytes) :
    joinStep (joinStep a b) c = joinStep a (joinStep b c) := by
  by_cases ha : a = []
  · rw [ha, joinStep_nil_left, joinStep_nil_left]
  by_cases hb : b = []
  · rw [hb, joinStep_nil_right, joinStep_nil_left]
  by_cases hc : c = []
  · rw [hc, joinStep_nil_right, joinStep_nil_right]
  have hends := getLast?_joined (a := a) hb
  rw [joinStep_eq ha hb, joinStep_eq hb hc, joinStep_eq (by simp [ha]) hc,
    joinStep_eq ha (by simp [hb]), appended_append _ hb, decide_eq_decide.mpr hends,
    List.append_assoc]

/-- A string under `JoinPath`. -/
@[ext] structure Joined where
  text : Bytes

instance joinedMonoid : Monoid Joined where
  mul a b := ⟨joinStep a.text b.text⟩
  one := ⟨[]⟩
  mul_assoc a b c := Joined.ext (joinStep_assoc a.text b.text c.text)
  one_mul a := Joined.ext (joinStep_nil_left a.text)
  mul_one a := Joined.ext (joinStep_nil_right a.text)

/-- **`JoinPath` is the product.** -/
theorem joinPathImpl_eq_prod (paths : List Bytes) :
    joinPathImpl paths = (paths.map Joined.mk).prod.text := by
  have hfold : ∀ result : Bytes,
      paths.foldl joinStep result = ((paths.map Joined.mk).foldl (· * ·) (Joined.mk result)).text := by
    induction paths with
    | nil => exact fun _ => rfl
    | cons path paths ih => exact fun result => ih (joinStep result path)
  rw [joinPathImpl, hfold, List.prod_eq_foldl]
  rfl

theorem joinPathImpl_pair (a b : Bytes) : joinPathImpl [a, b] = joinStep a b := by
  rw [joinPathImpl, List.foldl_cons, joinStep_nil_left]
  rfl

theorem joinPathImpl_singleton (a : Bytes) : joinPathImpl [a] = a := joinStep_nil_left a

/-! ### Seams -/

/-- How many pairs of adjacent separators a path has. -/
def doubled : Bytes → ℕ
  | [] => 0
  | a :: path => doubled path + if a = slash ∧ path.head? = some slash then 1 else 0

theorem doubled_append (a b : Bytes) :
    doubled (a ++ b)
      = doubled a + doubled b + if a.getLast? = some slash ∧ b.head? = some slash then 1 else 0 := by
  induction a with
  | nil => simp [doubled]
  | cons x a ih =>
    cases a with
    | nil => simp [doubled]
    | cons y a =>
      have hcons : ∀ path : Bytes, doubled (x :: y :: path)
          = doubled (y :: path) + if x = slash ∧ y = slash then 1 else 0 := by
        intro path
        simp [doubled]
      rw [List.cons_append, List.cons_append, hcons, ← List.cons_append, ih, hcons,
        List.getLast?_cons_cons]
      omega

/-- **No separator is doubled, and no doubled one is lost.** -/
theorem doubled_joinStep (a b : Bytes) : doubled (joinStep a b) = doubled a + doubled b := by
  by_cases ha : a = []
  · rw [ha, joinStep_nil_left, doubled, Nat.zero_add]
  by_cases hb : b = []
  · rw [hb, joinStep_nil_right, doubled, Nat.add_zero]
  obtain ⟨x, b, rfl⟩ := List.exists_cons_of_ne_nil hb
  rw [joinStep_eq ha hb, doubled_append]
  by_cases hends : a.getLast? = some slash
  · by_cases hx : x = slash
    · -- the pair at the seam is the one that `b` began with, if it did
      simp [appended, hends, isAbsolutePath, hx, doubled]
      omega
    · simp [appended, hends, isAbsolutePath, hx, doubled]
  · by_cases hx : x = slash
    · simp [appended, hends, isAbsolutePath, hx, doubled]
    · simp [appended, hends, isAbsolutePath, hx, doubled]

/-- What is appended to a non-empty text: a path as it is, with one separator in front of it, or
without its first. -/
theorem joinStep_cases {a b : Bytes} (ha : a ≠ []) (hb : b ≠ []) :
    ∃ r, joinStep a b = a ++ r ∧ (r = b ∨ r = slash :: b ∨ slash :: r = b) ∧
      (a.getLast? = some slash → r.head? = some slash → [slash, slash] <+: b) := by
  obtain ⟨x, b, rfl⟩ := List.exists_cons_of_ne_nil hb
  refine ⟨_, joinStep_eq ha hb, ?_⟩
  by_cases hends : a.getLast? = some slash
  · by_cases hx : x = slash
    · subst hx
      have happ : appended (a.getLast? = some slash) (slash :: b) = b := by
        rw [decide_eq_true hends]
        rfl
      rw [happ]
      refine ⟨.inr (.inr rfl), fun _ hhead => ?_⟩
      obtain ⟨b, rfl⟩ := List.head?_eq_some_iff.mp hhead
      exact List.prefix_append [slash, slash] b
    · simp [appended, hends, isAbsolutePath, hx]
  · by_cases hx : x = slash
    · simp [appended, hends, isAbsolutePath, hx]
    · simp [appended, hends, isAbsolutePath, hx]

/-- **`JoinPath` is a monoid operation**, in any grouping of any list of strings; and where two
non-empty strings meet, at most one separator is put in or taken out, a doubled one at the seam was
there before, and there are as many doubled ones as in the two strings. -/
theorem joinPath_monoid :
    (∀ a b c, joinPathImpl [a, joinPathImpl [b, c]] = joinPathImpl [a, b, c] ∧
      joinPathImpl [joinPathImpl [a, b], c] = joinPathImpl [a, b, c]) ∧
    (∀ a, joinPathImpl [a, []] = a ∧ joinPathImpl [[], a] = a) ∧
    (∀ groups : List (List Bytes), joinPathImpl (groups.map joinPathImpl)
      = joinPathImpl groups.flatten) ∧
    (∀ a b, a ≠ [] → b ≠ [] → ∃ r, joinPathImpl [a, b] = a ++ r ∧
      (r = b ∨ r = slash :: b ∨ slash :: r = b) ∧
      (a.getLast? = some slash → r.head? = some slash → [slash, slash] <+: b)) ∧
    ∀ a b, doubled (joinPathImpl [a, b]) = doubled a + doubled b := by
  have hgroups : ∀ groups : List (List Bytes), joinPathImpl (groups.map joinPathImpl)
      = joinPathImpl groups.flatten := by
    intro groups
    rw [joinPathImpl_eq_prod, joinPathImpl_eq_prod, List.map_flatten, List.prod_flatten, List.map_map,
      List.map_map]
    exact congrArg (fun l : List Joined => l.prod.text)
      (List.map_congr_left fun g _ => Joined.ext (joinPathImpl_eq_prod g))
  refine ⟨fun a b c => ?_, fun a => ?_, hgroups, fun a b ha hb => ?_, fun a b => ?_⟩
  · have hright := hgroups [[a], [b, c]]
    have hleft := hgroups [[a, b], [c]]
    rw [List.map_cons, List.map_singleton, joinPathImpl_singleton] at hright hleft
    exact ⟨hright, hleft⟩
  · exact ⟨by rw [joinPathImpl_pair, joinStep_nil_right], by rw [joinPathImpl_pair, joinStep_nil_left]⟩
  · rw [joinPathImpl_pair]
    exact joinStep_cases ha hb
  · rw [joinPathImpl_pair, doubled_joinStep]

/-- Two separators that meet. -/
theorem joinPath_monoid_seam : ∃ r, joinPathImpl [[0x61, 0x2f], [0x2f, 0x62]] = [0x61, 0x2f] ++ r ∧
    (r = [0x2f, 0x62] ∨ r = slash :: [0x2f, 0x62] ∨ slash :: r = [0x2f, 0x62]) ∧
    ([0x61, 0x2f].getLast? = some slash → r.head? = some slash →
      [slash, slash] <+: [0x2f, 0x62]) :=
  joinPath_monoid.2.2.2.1 [0x61, 0x2f] [0x2f, 0x62] (List.cons_ne_nil _ _) (List.cons_ne_nil _ _)

end LearnNetlib.Path
