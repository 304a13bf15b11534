import LearnNetlib.Foundations.Runs
import Mathlib.Algebra.Order.Group.Nat

/-!
# `RefCountedBase`, shared between owners

The steps are the atomic operations on `ref_`, a number of `w` bits; each owner holds one reference, may take
one on behalf of a new owner, and gives its own up once.

* `ref`, `unrefLoad`, `unrefFetchSub` — the code of `base/ref_counted.h`, without the `DCHECK`s;
* `Safe` — who destroys the object, and when;
* `Inv`, `step_inv` — the count is the number of owners that have not given up their reference, whether or
  not they have looked at it;
* **`refCounted_safe`** — so in every interleaving one owner destroys the object, the last, as long as the
  count has room for the owners.
-/

namespace LearnNetlib.RefCounted

open Runs

/-! ### The code -/

/-- Where an owner is: it holds its reference; or its `Unref` has loaded a count other than 1; or its
`Unref` has returned this. -/
inductive Phase
  | holding
  | loaded
  | returned (last : Bool)
  deriving Repr, DecidableEq

/-- The owner has not given up its reference. -/
def Phase.live : Phase → Bool
  | .returned _ => false
  | _ => true

/-- An object and its owners. -/
structure State (w : ℕ) where
  ref : BitVec w
  owners : List Phase

section

variable {w : ℕ}

/-- `n` owners, each with one reference. -/
def init (w n : ℕ) : State w := ⟨BitVec.ofNat w n, List.replicate n .holding⟩

/-- `Ref`, on behalf of a new owner. -/
def ref (s : State w) : State w := ⟨s.ref + 1, s.owners ++ [.holding]⟩

/-- `Unref` up to its load. -/
def unrefLoad (s : State w) (i : ℕ) : State w :=
  if s.ref = 1 then { s with owners := s.owners.set i (.returned true) }
  else { s with owners := s.owners.set i .loaded }

/-- The rest of `Unref`. -/
def unrefFetchSub (s : State w) (i : ℕ) : State w :=
  ⟨s.ref - 1, s.owners.set i (.returned (s.ref = 1))⟩

/-- `RefCountIsOne`. -/
def refCountIsOne (s : State w) : Bool := s.ref = 1

/-- The steps: owner `i` goes on. -/
inductive Action
  | ref (i : ℕ)
  | unrefLoad (i : ℕ)
  | unrefFetchSub (i : ℕ)
  deriving Repr, DecidableEq

/-- Where the owner has to be. -/
def Enabled (s : State w) : Action → Prop
  | .ref i => s.owners[i]? = some .holding
  | .unrefLoad i => s.owners[i]? = some .holding
  | .unrefFetchSub i => s.owners[i]? = some .loaded

instance decidableEnabled (s : State w) : ∀ a, Decidable (Enabled s a)
  | .ref i => inferInstanceAs (Decidable (s.owners[i]? = some .holding))
  | .unrefLoad i => inferInstanceAs (Decidable (s.owners[i]? = some .holding))
  | .unrefFetchSub i => inferInstanceAs (Decidable (s.owners[i]? = some .loaded))

/-- What comes of it. -/
def next (s : State w) : Action → State w
  | .ref _ => RefCounted.ref s
  | .unrefLoad i => RefCounted.unrefLoad s i
  | .unrefFetchSub i => RefCounted.unrefFetchSub s i

/-- The transition system. -/
def step : State w → Action → Except Unit (Unit × State w) := ofEnabled Enabled next

/-! ### What it is for -/

/-- Owner `i` destroys the object. -/
def Destroys (s : State w) (i : ℕ) : Prop := s.owners[i]? = some (.returned true)

/-- Who destroys the object does so when all others have given up their reference, and then nobody touches it;
and when nothing is left to do one owner has. -/
structure Safe (s : State w) : Prop where
  last : ∀ i, Destroys s i → ∀ j < s.owners.length, j ≠ i → s.owners[j]? = some (.returned false)
  untouched : (∃ i, Destroys s i) → ∀ a, ¬ Enabled s a
  destroyed : (∀ a, ¬ Enabled s a) → ∃! i, Destroys s i

/-- The number of owners that have not given up their reference. -/
def live (s : State w) : ℕ := s.owners.countP Phase.live

/-- The count has room for another owner. -/
def Room (s : State w) : Action → Prop
  | .ref _ => live s < 2 ^ w
  | _ => True

instance decidableRoom (s : State w) : ∀ a, Decidable (Room s a)
  | .ref _ => inferInstanceAs (Decidable (live s < 2 ^ w))
  | .unrefLoad _ => .isTrue trivial
  | .unrefFetchSub _ => .isTrue trivial

/-! ### The invariant -/

/-- The count is the number of owners that have not given up their reference; once one destroys the object,
all others have. -/
inductive Inv (s : State w) : Prop
  | alive (hnone : ∀ i, ¬ Destroys s i) (hpos : 1 ≤ live s) (hroom : live s ≤ 2 ^ w)
      (hcount : s.ref = BitVec.ofNat w (live s))
  | gone (i : ℕ) (hdestroys : Destroys s i)
      (hothers : ∀ j < s.owners.length, j ≠ i → s.owners[j]? = some (.returned false))

section Count

variable {owners : List Phase} {i : ℕ} {p q : Phase}

/-- An owner that goes on without giving up its reference. -/
theorem countP_set_live (hi : owners[i]? = some p) (hp : p.live = true) (hq : q.live = true) :
    (owners.set i q).countP Phase.live = owners.countP Phase.live := by
  obtain ⟨hlt, rfl⟩ := List.getElem?_eq_some_iff.mp hi
  have hpos : 0 < owners.countP Phase.live := List.countP_pos_iff.mpr ⟨_, List.getElem_mem hlt, hp⟩
  rw [List.countP_set hlt, if_pos hp, if_pos hq]
  omega

/-- An owner that gives up its reference. -/
theorem countP_set_returned (hi : owners[i]? = some p) (hp : p.live = true) (hq : q.live = false) :
    (owners.set i q).countP Phase.live + 1 = owners.countP Phase.live := by
  obtain ⟨hlt, rfl⟩ := List.getElem?_eq_some_iff.mp hi
  have hpos : 0 < owners.countP Phase.live := List.countP_pos_iff.mpr ⟨_, List.getElem_mem hlt, hp⟩
  rw [List.countP_set hlt, if_pos hp, if_neg (by rw [hq]; exact Bool.false_ne_true)]
  omega

end Count

variable {s : State w} {i : ℕ} {p : Phase}

/-- With room for the owners the count is 1 only for the last of them. -/
theorem ref_eq_one_iff (hpos : 1 ≤ live s) (hroom : live s ≤ 2 ^ w)
    (hcount : s.ref = BitVec.ofNat w (live s)) : s.ref = 1 ↔ live s = 1 := by
  constructor
  · intro h
    have hmod : live s % 2 ^ w = 1 % 2 ^ w := by
      have := congrArg BitVec.toNat (hcount.symm.trans h)
      simpa using this
    rcases Nat.lt_or_eq_of_le hroom with hlt | heq
    · have hone : 1 < 2 ^ w ∨ live s = 1 := by omega
      rcases hone with hone | hone
      · rwa [Nat.mod_eq_of_lt hlt, Nat.mod_eq_of_lt hone] at hmod
      · exact hone
    · rw [heq, Nat.mod_self] at hmod
      have hw : w = 0 := by
        by_contra hw
        rw [Nat.mod_eq_of_lt (Nat.one_lt_two_pow hw)] at hmod
        exact absurd hmod (by decide)
      simp [heq, hw]
  · intro h
    rw [hcount, h]
    rfl

theorem refCountIsOne_iff (hpos : 1 ≤ live s) (hroom : live s ≤ 2 ^ w)
    (hcount : s.ref = BitVec.ofNat w (live s)) : refCountIsOne s = true ↔ live s = 1 :=
  decide_eq_true_iff.trans (ref_eq_one_iff hpos hroom hcount)

/-- The last owner to give up its reference destroys the object. -/
theorem gone_of_last (hnone : ∀ i, ¬ Destroys s i) (hlast : live s = 1) (hi : s.owners[i]? = some p)
    (hp : p.live = true) (ref' : BitVec w) :
    Inv ⟨ref', s.owners.set i (.returned true)⟩ := by
  have hlt := (List.getElem?_eq_some_iff.mp hi).1
  refine .gone i (List.getElem?_set_self hlt) fun j hj hne => ?_
  rw [List.length_set] at hj
  have hcount := countP_set_returned (q := .returned true) hi hp rfl
  have hzero : (s.owners.set i (.returned true)).countP Phase.live = 0 := by
    rw [live] at hlast
    omega
  have hget : (s.owners.set i (.returned true))[j]? = some s.owners[j] := by
    rw [List.getElem?_set_ne hne.symm, List.getElem?_eq_getElem hj]
  have hdead := List.countP_eq_zero.mp hzero _ (List.mem_of_getElem? hget)
  rw [hget]
  have hnot : s.owners[j] ≠ .returned true := fun h =>
    hnone j (by rw [Destroys, List.getElem?_eq_getElem hj, h])
  cases hphase : s.owners[j] with
  | holding => simp [hphase, Phase.live] at hdead
  | loaded => simp [hphase, Phase.live] at hdead
  | returned last =>
    cases last with
    | false => rfl
    | true => exact absurd hphase hnot

/-- An owner goes on and destroys nothing. -/
theorem not_destroys_set (hnone : ∀ i, ¬ Destroys s i) {q : Phase} (hq : q ≠ .returned true)
    (ref' : BitVec w) (j : ℕ) : ¬ Destroys ⟨ref', s.owners.set i q⟩ j := by
  intro h
  rw [Destroys, List.getElem?_set] at h
  split_ifs at h with hij hlt
  · exact hq (Option.some.inj h)
  · exact hnone j h

theorem inv_init {n : ℕ} (hn : 1 ≤ n) (hroom : n ≤ 2 ^ w) : Inv (init w n) := by
  have hlive : live (init w n) = n := by
    rw [live, init, List.countP_replicate]
    rfl
  refine .alive (fun i h => ?_) (hlive.symm ▸ hn) (hlive.symm ▸ hroom) (by rw [hlive]; rfl)
  rw [Destroys, init, List.getElem?_replicate] at h
  split_ifs at h
  cases h

/-- Where the object is gone nobody touches it. -/
theorem not_enabled_of_gone (hdestroys : Destroys s i)
    (hothers : ∀ j < s.owners.length, j ≠ i → s.owners[j]? = some (.returned false)) (a : Action) :
    ¬ Enabled s a := by
  have hreturned (j : ℕ) (q : Phase) (hj : s.owners[j]? = some q) : q.live = false := by
    by_cases hij : j = i
    · subst hij
      cases hj.symm.trans hdestroys
      rfl
    · have hlt := (List.getElem?_eq_some_iff.mp hj).1
      cases hj.symm.trans (hothers j hlt hij)
      rfl
  intro ha
  cases a with
  | ref j => exact Bool.noConfusion (hreturned j _ ha)
  | unrefLoad j => exact Bool.noConfusion (hreturned j _ ha)
  | unrefFetchSub j => exact Bool.noConfusion (hreturned j _ ha)

/-- **Every step keeps the invariant.** -/
theorem step_inv {a : Action} (h : Inv s) (ha : Enabled s a) (hroom : Room s a) : Inv (next s a) := by
  cases h with
  | gone i hdestroys hothers => exact absurd ha (not_enabled_of_gone hdestroys hothers a)
  | alive hnone hpos hle hcount =>
    have hone := ref_eq_one_iff hpos hle hcount
    cases a with
    | ref j =>
      have hlive : live (ref s) = live s + 1 := by
        rw [live, ref, List.countP_append]
        rfl
      refine .alive (fun k hk => ?_) ?_ ?_ ?_
      · rw [next, ref, Destroys, List.getElem?_append] at hk
        split_ifs at hk with hlt
        · exact hnone k hk
        · rw [List.getElem?_singleton] at hk
          split_ifs at hk
          cases hk
      · rw [next, hlive]
        omega
      · rw [next, hlive]
        exact hroom
      · rw [next, hlive, BitVec.ofNat_add, ← hcount]
        rfl
    | unrefLoad j =>
      rw [next, unrefLoad]
      split_ifs with hload
      · exact gone_of_last hnone (hone.mp hload) ha rfl _
      · have hlive : live ⟨s.ref, s.owners.set j .loaded⟩ = live s := countP_set_live ha rfl rfl
        refine .alive (not_destroys_set hnone (by decide) _) ?_ ?_ ?_ <;> rw [hlive] <;> assumption
    | unrefFetchSub j =>
      rw [next, unrefFetchSub]
      by_cases hload : s.ref = 1
      · rw [decide_eq_true hload]
        exact gone_of_last hnone (hone.mp hload) ha rfl _
      · rw [decide_eq_false hload]
        have hlive : live ⟨s.ref - 1, s.owners.set j (.returned false)⟩ + 1 = live s :=
          countP_set_returned ha rfl rfl
        have hmore : live s ≠ 1 := fun h => hload (hone.mpr h)
        refine .alive (not_destroys_set hnone (by decide) _) (by omega) (by omega) ?_
        rw [hcount, ← hlive, BitVec.ofNat_add]
        exact BitVec.add_sub_cancel _ _

/-- The invariant says who destroys the object. -/
theorem Inv.safe (h : Inv s) : Safe s := by
  cases h with
  | alive hnone hpos _ _ =>
    refine ⟨fun i hi => absurd hi (hnone i), fun ⟨i, hi⟩ => absurd hi (hnone i), fun hdone => ?_⟩
    obtain ⟨p, hmem, hp⟩ := List.countP_pos_iff.mp hpos
    obtain ⟨j, hj⟩ := List.mem_iff_getElem?.mp hmem
    cases p with
    | holding => exact absurd hj (hdone (.unrefLoad j))
    | loaded => exact absurd hj (hdone (.unrefFetchSub j))
    | returned last => exact Bool.noConfusion hp
  | gone i hdestroys hothers =>
    have honly (j : ℕ) (hj : Destroys s j) : j = i := by
      by_contra hne
      have hlt := (List.getElem?_eq_some_iff.mp hj).1
      cases hj.symm.trans (hothers j hlt hne)
    refine ⟨fun j hj k hk hkj => hothers k hk (honly j hj ▸ hkj),
      fun _ => not_enabled_of_gone hdestroys hothers, fun _ => ⟨i, hdestroys, honly⟩⟩

/-- **One owner destroys the object, the last.**  In every interleaving of any number of owners, new ones
included, as long as there are never more than the count has room for. -/
theorem refCounted_safe {n : ℕ} (hn : 1 ≤ n) (hroom : n ≤ 2 ^ w) {actions : List Action} {os : List Unit}
    (hrun : run step (init w n) actions = .ok (os, s))
    (hrefs : ∀ p ∈ steps step (init w n) actions, Room p.1 p.2) : Safe s := by
  have hkeeps (s : State w) (a : Action) (hs : Inv s)
      (hguard : ∀ p ∈ [(s, a)], (fun p : State w × Action => Room p.1 p.2) p) :
      Ends Inv (fun _ => True) (step s a) := by
    cases hres : step s a with
    | error e => trivial
    | ok r =>
      obtain ⟨o, s'⟩ := r
      obtain ⟨ha, rfl⟩ := ofEnabled_eq_ok.mp hres
      exact step_inv hs ha (hguard (s, a) (List.mem_singleton_self _))
  have hends := run_guarded hkeeps (inv_init hn hroom) hrefs
  rw [hrun] at hends
  exact hends.safe

end

/-- Two owners, one of which takes a reference for a third. -/
theorem refCounted_safe_three : Safe (unrefLoad (ref (init 64 2)) 0) :=
  @refCounted_safe 64 _ 2 (by decide) (by decide) [.ref 1, .unrefLoad 0] [(), ()] rfl (by
      change ∀ p ∈ [(init 64 2, Action.ref 1), (ref (init 64 2), .unrefLoad 0)], Room p.1 p.2
      decide)

/-- An owner that loads 1 destroys the object, even if others hold theirs. -/
theorem not_safe_of_ref_eq_one {w n : ℕ} (hn : 2 ≤ n) (hone : BitVec.ofNat w n = 1) :
    ∃ s, run step (init w n) [.unrefLoad 0] = .ok ([()], s) ∧ ¬ Safe s := by
  have hheld (i : ℕ) (hi : i < n) : (init w n).owners[i]? = some .holding := by
    rw [init, List.getElem?_replicate, if_pos hi]
  have hstep : step (init w n) (.unrefLoad 0) = .ok ((), unrefLoad (init w n) 0) :=
    ofEnabled_eq_ok.mpr ⟨hheld 0 (by omega), rfl⟩
  refine ⟨unrefLoad (init w n) 0, by rw [run_cons_ok hstep]; rfl, fun hsafe => ?_⟩
  have hload : unrefLoad (init w n) 0 = ⟨(init w n).ref, (init w n).owners.set 0 (.returned true)⟩ :=
    if_pos hone
  have hlength : (init w n).owners.length = n := List.length_replicate
  rw [hload] at hsafe
  have hfirst : Destroys ⟨(init w n).ref, (init w n).owners.set 0 (.returned true)⟩ 0 :=
    List.getElem?_set_self (by omega)
  have hsecond := hsafe.last 0 hfirst 1 (by rw [List.length_set]; omega) (by decide)
  rw [List.getElem?_set_ne (by decide), hheld 1 (by omega)] at hsecond
  cases hsecond

/-- With one owner more than the count has values, the first to give up its reference destroys the object. -/
theorem not_safe_wrap :
    ∃ s, run step (init 64 (2 ^ 64 + 1)) [.unrefLoad 0] = .ok ([()], s) ∧ ¬ Safe s :=
  not_safe_of_ref_eq_one (by decide) (by decide)

end LearnNetlib.RefCounted
