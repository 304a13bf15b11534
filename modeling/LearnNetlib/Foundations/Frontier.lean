import Mathlib.Data.List.Perm.Subperm
import Mathlib.Data.List.Sort
import Mathlib.Data.List.TakeWhile
import Mathlib.Order.Bounds.Basic
import Mathlib.Tactic.Common

/-!
# Numbers that arrive in any order

Items with integer numbers arrive one by one.  The frontier is the least number from 0 on that has
not arrived; the items that are not behind it wait in a sorted list.

* `Tracks` — frontier and waiting list for a set of arrived items; `Tracks.unique`: the set
  determines both; `Tracks.le_card`: the frontier is at most the number of arrivals;
* `drain` — the frontier swallows the waiting items it has reached; `drain_spec`;
* **`Tracks.reached`**, **`Tracks.waiting`** — one more arrival, at the frontier or elsewhere;
* `Leasts` — the least arrival for every key, and **`Leasts.insert`**.
-/

namespace LearnNetlib.Frontier

variable {α : Type*} (num : α → ℤ)

/-- The numbers from 0 on of which no item is in `S`. -/
def Missing (S : Set α) : Set ℤ := {n | 0 ≤ n ∧ ∀ a ∈ S, num a ≠ n}

/-- From the iterator on: as long as the next item is at the frontier, it is taken out and the
frontier moves on. -/
def drain (c : ℤ) : List α → ℤ × List α
  | [] => (c, [])
  | a :: l => if num a = c then drain (c + 1) l else (c, a :: l)

/-! ### The frontier -/

variable {num} {S : Set α} {c : ℤ} {l : List α}

theorem isLeast_missing_iff :
    IsLeast (Missing num S) c ↔
      (0 ≤ c ∧ ∀ a ∈ S, num a ≠ c) ∧ ∀ n, 0 ≤ n → n < c → ∃ a ∈ S, num a = n := by
  refine and_congr_right fun _ => ⟨fun h n hn hnc => ?_, fun h n hn => ?_⟩
  · by_contra hno
    push Not at hno
    exact absurd (h ⟨hn, hno⟩) (not_le.mpr hnc)
  · by_contra hnc
    obtain ⟨a, ha, han⟩ := h n hn.1 (not_le.mp hnc)
    exact hn.2 a ha han

/-- Behind the frontier everything has arrived; now the frontier has, too. -/
theorem full_insert {a : α} (h : IsLeast (Missing num S) (num a)) :
    ∀ n, 0 ≤ n → n < num a + 1 → ∃ b ∈ insert a S, num b = n := by
  intro n hn hlt
  rcases eq_or_ne n (num a) with rfl | hne
  · exact ⟨a, Set.mem_insert _ _, rfl⟩
  · obtain ⟨b, hb, hbn⟩ := (isLeast_missing_iff.mp h).2 n hn (by omega)
    exact ⟨b, Set.mem_insert_of_mem _ hb, hbn⟩

variable [LinearOrder α]

variable (num) in
/-- `c` is the frontier of `S`, and `l` lists the items of `S` that are not behind it. -/
structure Tracks (S : Set α) (c : ℤ) (l : List α) : Prop where
  least : IsLeast (Missing num S) c
  sorted : l.Pairwise (· < ·)
  mem : ∀ a, a ∈ l ↔ a ∈ S ∧ (num a < 0 ∨ c < num a)

namespace Tracks

theorem nothing : Tracks num (∅ : Set α) 0 [] where
  least := isLeast_missing_iff.mpr ⟨⟨le_rfl, by simp⟩, fun n h0 h => absurd h (not_lt.mpr h0)⟩
  sorted := List.Pairwise.nil
  mem := by simp

/-- **What has arrived determines frontier and waiting list.** -/
theorem unique {c' : ℤ} {l' : List α} (h : Tracks num S c l) (h' : Tracks num S c' l') :
    c = c' ∧ l = l' := by
  obtain rfl := h.least.unique h'.least
  refine ⟨rfl, h.sorted.eq_of_mem_iff h'.sorted fun a => ?_⟩
  rw [h.mem, h'.mem]

/-- The frontier is at most the number of arrivals. -/
theorem le_card (h : Tracks num S c l) (as : List α) (has : ∀ a ∈ S, a ∈ as) : c ≤ as.length := by
  obtain ⟨⟨h0, -⟩, hfull⟩ := isLeast_missing_iff.mp h.least
  have hsub : (List.range c.toNat).map Int.ofNat ⊆ as.map num := by
    intro n hn
    obtain ⟨m, hm, rfl⟩ := List.mem_map.mp hn
    obtain ⟨a, ha, han⟩ := hfull (Int.ofNat m) (Int.natCast_nonneg m)
      (by have := List.mem_range.mp hm; simp only [Int.ofNat_eq_natCast]; omega)
    exact List.mem_map.mpr ⟨a, has a ha, han⟩
  have hnodup : ((List.range c.toNat).map Int.ofNat).Nodup :=
    List.nodup_range.map fun _ _ => Int.ofNat.inj
  have hle := (hnodup.subperm hsub).length_le
  rw [List.length_map, List.length_map, List.length_range] at hle
  omega

end Tracks

/-! ### One more arrival -/

/-- Draining from a frontier behind which everything has arrived. -/
theorem drain_spec (hmono : ∀ a b, a < b → num a < num b) (h0 : 0 ≤ c)
    (hfull : ∀ n, 0 ≤ n → n < c → ∃ a ∈ S, num a = n) (hs : l.Pairwise (· < ·))
    (hmem : ∀ a, a ∈ l ↔ a ∈ S ∧ c ≤ num a) :
    IsLeast (Missing num S) (drain num c l).1 ∧ (drain num c l).2 <:+ l ∧
      ∀ a, a ∈ (drain num c l).2 ↔ a ∈ S ∧ (drain num c l).1 < num a := by
  induction l generalizing c with
  | nil =>
    have hnone : ∀ a ∈ S, num a < c := fun a ha =>
      not_le.mp fun hle => absurd ((hmem a).mpr ⟨ha, hle⟩) List.not_mem_nil
    refine ⟨isLeast_missing_iff.mpr ⟨⟨h0, fun a ha => (hnone a ha).ne⟩, hfull⟩,
      List.suffix_rfl, fun a => ?_⟩
    simp only [drain, List.not_mem_nil, false_iff, not_and, not_lt]
    exact fun ha => (hnone a ha).le
  | cons b l ih =>
    obtain ⟨hb, hs⟩ := List.pairwise_cons.mp hs
    obtain ⟨hbS, hcb⟩ := (hmem b).mp List.mem_cons_self
    rw [drain]
    by_cases hbc : num b = c
    · -- `b` is at the frontier
      rw [if_pos hbc]
      have hfull' : ∀ n, 0 ≤ n → n < c + 1 → ∃ a ∈ S, num a = n := by
        intro n hn hlt
        rcases eq_or_ne n c with rfl | hne
        · exact ⟨b, hbS, hbc⟩
        · exact hfull n hn (by omega)
      have hmem' : ∀ a, a ∈ l ↔ a ∈ S ∧ c + 1 ≤ num a := by
        intro a
        constructor
        · intro ha
          have := hmono b a (hb a ha)
          exact ⟨((hmem a).mp (List.mem_cons_of_mem _ ha)).1, by omega⟩
        · rintro ⟨ha, hle⟩
          rcases List.mem_cons.mp ((hmem a).mpr ⟨ha, by omega⟩) with rfl | hal
          · omega
          · exact hal
      obtain ⟨hleast, hsuffix, hrest⟩ := ih (by omega) hfull' hs hmem'
      exact ⟨hleast, hsuffix.trans (List.suffix_cons b l), hrest⟩
    · -- the frontier stays below `b`
      rw [if_neg hbc]
      have habove : ∀ a ∈ S, c ≤ num a → c < num a := by
        intro a ha hle
        rcases List.mem_cons.mp ((hmem a).mpr ⟨ha, hle⟩) with rfl | hal
        · omega
        · have := hmono b a (hb a hal)
          omega
      refine ⟨isLeast_missing_iff.mpr ⟨⟨h0, fun a ha hac => ?_⟩, hfull⟩, List.suffix_rfl, fun a => ?_⟩
      · have := habove a ha hac.ge
        omega
      · rw [hmem]
        exact and_congr_right fun ha => ⟨habove a ha, le_of_lt⟩

namespace Tracks

/-- An arrival at the frontier, the next number not waiting. -/
theorem reached_absent {a : α} (h : Tracks num S (num a) l) (hnone : ∀ b ∈ l, num b ≠ num a + 1) :
    Tracks num (insert a S) (num a + 1) l := by
  obtain ⟨⟨h0, -⟩, -⟩ := isLeast_missing_iff.mp h.least
  have hnone' : ∀ b ∈ insert a S, num b ≠ num a + 1 := by
    rintro b (rfl | hb) hba
    · omega
    · exact hnone b ((h.mem b).mpr ⟨hb, .inr (by omega)⟩) hba
  refine ⟨isLeast_missing_iff.mpr ⟨⟨by omega, hnone'⟩, full_insert h.least⟩, h.sorted, fun b => ?_⟩
  rw [h.mem b]
  constructor
  · rintro ⟨hb, hlt | hlt⟩
    · exact ⟨.inr hb, .inl hlt⟩
    · have := hnone' b (.inr hb)
      exact ⟨.inr hb, .inr (by omega)⟩
  · rintro ⟨rfl | hb, hlt⟩
    · omega
    · exact ⟨hb, hlt.imp_right fun hlt => by omega⟩

/-- An arrival at the frontier, the item with the next number waiting. -/
theorem reached_present (hmono : ∀ a b, a < b → num a < num b) {a i : α} {before rest : List α}
    (h : Tracks num S (num a) (before ++ i :: rest)) (hi : num i = num a + 1) :
    Tracks num (insert a S) (drain num (num a + 1) (i :: rest)).1
      (before ++ (drain num (num a + 1) (i :: rest)).2) := by
  obtain ⟨⟨h0, -⟩, -⟩ := isLeast_missing_iff.mp h.least
  obtain ⟨hsb, hsr, hbr⟩ := List.pairwise_append.mp h.sorted
  have hmem : ∀ b, b ∈ before ∨ b ∈ i :: rest ↔ b ∈ S ∧ (num b < 0 ∨ num a < num b) := by
    intro b
    rw [← List.mem_append, h.mem]
  -- in front of the iterator stand only negative numbers
  have hneg : ∀ b ∈ before, num b < 0 := by
    intro b hb
    have hlt := hmono b i (hbr b hb i List.mem_cons_self)
    rcases ((hmem b).mp (.inl hb)).2 with hlt' | hlt'
    · exact hlt'
    · omega
  have hrest : ∀ b, b ∈ i :: rest ↔ b ∈ insert a S ∧ num a + 1 ≤ num b := by
    intro b
    constructor
    · intro hb
      have hge : num a + 1 ≤ num b := by
        rcases List.mem_cons.mp hb with rfl | hb
        · exact hi.ge
        · exact hi ▸ (hmono i b ((List.pairwise_cons.mp hsr).1 b hb)).le
      exact ⟨Set.mem_insert_of_mem _ ((hmem b).mp (.inr hb)).1, hge⟩
    · rintro ⟨rfl | hb, hle⟩
      · omega
      · rcases (hmem b).mpr ⟨hb, .inr (by omega)⟩ with hbb | hbr'
        · have := hneg b hbb
          omega
        · exact hbr'
  obtain ⟨hleast, hsuffix, hdrained⟩ :=
    drain_spec hmono (by omega) (full_insert h.least) hsr hrest
  refine ⟨hleast, List.pairwise_append.mpr ⟨hsb, hsr.sublist hsuffix.sublist, ?_⟩, fun b => ?_⟩
  · exact fun x hx y hy => hbr x hx y (hsuffix.subset hy)
  · rw [List.mem_append, hdrained]
    have hc0 := hleast.1.1
    constructor
    · rintro (hb | ⟨hb, hlt⟩)
      · exact ⟨Set.mem_insert_of_mem _ ((hmem b).mp (.inl hb)).1, .inl (hneg b hb)⟩
      · exact ⟨hb, .inr hlt⟩
    · rintro ⟨hb, hlt | hlt⟩
      · rcases hb with rfl | hb
        · omega
        · refine .inl (((hmem b).mpr ⟨hb, .inl hlt⟩).resolve_right fun hbr' => ?_)
          have := ((hrest b).mp hbr').2
          omega
      · exact .inr ⟨hb, hlt⟩

/-- **An arrival at the frontier**: the frontier moves on and swallows what it reaches, from the item
with the next number on if that one is waiting. -/
theorem reached (hmono : ∀ a b, a < b → num a < num b) {a : α} (h : Tracks num S (num a) l) :
    Tracks num (insert a S)
      (drain num (num a + 1) (l.dropWhile fun b => decide (num b ≠ num a + 1))).1
      ((l.takeWhile fun b => decide (num b ≠ num a + 1)) ++
        (drain num (num a + 1) (l.dropWhile fun b => decide (num b ≠ num a + 1))).2) := by
  have hsplit : (l.takeWhile fun b => decide (num b ≠ num a + 1)) ++
      (l.dropWhile fun b => decide (num b ≠ num a + 1)) = l := List.takeWhile_append_dropWhile
  cases hdrop : l.dropWhile fun b => decide (num b ≠ num a + 1) with
  | nil =>
    rw [hdrop, List.append_nil] at hsplit
    rw [drain, hsplit, List.append_nil]
    refine reached_absent h fun b hb => ?_
    rw [← hsplit] at hb
    simpa using List.mem_takeWhile_imp hb
  | cons i rest =>
    have hi : num i = num a + 1 := by
      have hhead := List.head?_dropWhile_not (fun b => decide (num b ≠ num a + 1)) l
      rw [hdrop] at hhead
      simpa using hhead
    rw [hdrop] at hsplit
    rw [← hsplit] at h
    exact reached_present hmono h hi

/-- **An arrival elsewhere**: it was not waiting, and waits now. -/
theorem waiting {a : α} (h : Tracks num S c l) (ha : a ∉ S) (hne : num a ≠ c)
    (hinj : Function.Injective num) :
    a ∉ l ∧ Tracks num (insert a S) c (l.orderedInsert (· ≤ ·) a) := by
  obtain ⟨⟨h0, hmiss⟩, hfull⟩ := isLeast_missing_iff.mp h.least
  have hal : a ∉ l := fun hl => ha ((h.mem a).mp hl).1
  have hbeyond : num a < 0 ∨ c < num a := by
    by_contra hno
    push Not at hno
    obtain ⟨b, hb, hba⟩ := hfull (num a) hno.1 (lt_of_le_of_ne hno.2 hne)
    exact ha (hinj hba ▸ hb)
  refine ⟨hal, isLeast_missing_iff.mpr ⟨⟨h0, ?_⟩, ?_⟩, ?_, fun b => ?_⟩
  · rintro b (rfl | hb)
    · exact hne
    · exact hmiss b hb
  · intro n hn hlt
    obtain ⟨b, hb, hbn⟩ := hfull n hn hlt
    exact ⟨b, Set.mem_insert_of_mem _ hb, hbn⟩
  · have hle := List.Pairwise.orderedInsert (r := (· ≤ ·)) a l (h.sorted.imp le_of_lt)
    have hnodup : (l.orderedInsert (· ≤ ·) a).Nodup :=
      (List.perm_orderedInsert _ a l).nodup_iff.mpr
        (List.nodup_cons.mpr ⟨hal, h.sorted.imp ne_of_lt⟩)
    exact (hle.and hnodup).imp fun hab => lt_of_le_of_ne hab.1 hab.2
  · rw [List.mem_orderedInsert, h.mem, Set.mem_insert_iff]
    constructor
    · rintro (rfl | ⟨hb, hlt⟩)
      · exact ⟨.inl rfl, hbeyond⟩
      · exact ⟨.inr hb, hlt⟩
    · rintro ⟨rfl | hb, hlt⟩
      · exact .inl rfl
      · exact .inr ⟨hb, hlt⟩

end Tracks

/-! ### The least arrival for every key -/

variable {κ : Type*}

/-- `m` gives for every key the least item of its set, if it has one. -/
def Leasts (S : κ → Set α) (m : κ → Option α) : Prop :=
  ∀ k, match m k with
    | none => S k = ∅
    | some a => IsLeast (S k) a

theorem Leasts.nothing : Leasts (fun _ : κ => (∅ : Set α)) fun _ => none := fun _ => rfl

theorem Leasts.eq_some_iff {S : κ → Set α} {m : κ → Option α} (h : Leasts S m) (k : κ) (a : α) :
    m k = some a ↔ IsLeast (S k) a := by
  have hk := h k
  cases hm : m k with
  | none =>
    rw [hm] at hk
    simp [hk, IsLeast]
  | some b =>
    rw [hm] at hk
    rw [Option.some_inj]
    exact ⟨fun hba => hba ▸ hk, hk.unique⟩

theorem Leasts.unique {S : κ → Set α} {m m' : κ → Option α} (h : Leasts S m) (h' : Leasts S m') :
    m = m' := by
  funext k
  ext a
  rw [h.eq_some_iff, h'.eq_some_iff]

/-- **One more arrival under `k`.** -/
theorem Leasts.insert [DecidableEq κ] {S S' : κ → Set α} {m : κ → Option α} {k : κ} {a : α}
    (h : Leasts S m) (hk : S' k = Insert.insert a (S k)) (hne : ∀ k' ≠ k, S' k' = S k') :
    Leasts S' (Function.update m k (some ((m k).elim a fun b => min b a))) := by
  intro k'
  by_cases hkk : k' = k
  · subst hkk
    rw [Function.update_self, hk]
    have hm := h k'
    cases hmk : m k' with
    | none =>
      rw [hmk] at hm
      dsimp only at hm
      simp [hm]
    | some b =>
      rw [hmk] at hm
      dsimp only [Option.elim]
      rw [min_comm]
      exact hm.insert a
  · rw [Function.update_of_ne hkk, hne k' hkk]
    exact h k'

end LearnNetlib.Frontier
