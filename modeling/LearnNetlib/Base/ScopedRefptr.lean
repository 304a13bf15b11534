import LearnNetlib.Foundations.Runs
import Mathlib.Algebra.Order.Group.Nat

/-!
# `scoped_refptr`

Programs over variables that share objects.  A count has `w` bits.

* `Object.unref`, `copyConstruct`, `assignPtr`, `moveAssign` and the others — the code of
  `base/ref_counted.h`, run by one thread;
* `Sound` — every object counts the variables that point to it, and is destroyed when there is none;
* `Holds` — the objects and a number for each of them; what `Ref` and `Unref` do to it;
* `step_holds` — what each operation does to it and to the variables;
* **`refptr_sound_iff`** — the counts are sound all the time, unless a fresh object is assigned to a variable,
  or one object gets more pointers than its count can say.
-/

namespace LearnNetlib.ScopedRefptr

open Runs

/-! ### The code -/

/-- What a `scoped_refptr` holds: an object, or `nullptr`. -/
abbrev Ptr := Option ℕ

inductive Failure
  | useAfterDestruction
  | deadVariable
  deriving Repr, DecidableEq

/-- `RefCounted<T>`. -/
structure Object (w : ℕ) where
  ref : BitVec w
  destroyed : Bool
  deriving Repr, DecidableEq

/-- The objects made so far, and the variables; those that are dead hold nothing. -/
structure State (w : ℕ) where
  objects : List (Object w)
  vars : List (Option Ptr)
  deriving Repr, DecidableEq

section

variable {w : ℕ}

/-- A fresh object. -/
def Object.new : Object w := ⟨1, false⟩

/-- `RefCountedBase::Ref`. -/
def Object.incRef (x : Object w) : Object w := { x with ref := x.ref + 1 }

/-- `RefCounted::Unref`. -/
def Object.unref (x : Object w) : Object w :=
  if x.ref = 1 then { x with destroyed := true }
  else ⟨x.ref - 1, decide (x.ref = 1)⟩

/-- An operation on the object a pointer points to, if it points to one. -/
def onObject (f : Object w → Object w) (objects : List (Object w)) :
    Ptr → Except Failure (List (Object w))
  | none => .ok objects
  | some o =>
    match objects[o]? with
    | none => .error .useAfterDestruction
    | some x => if x.destroyed then .error .useAfterDestruction else .ok (objects.set o (f x))

/-- `if (p) Ref(p)`. -/
def refPtr : List (Object w) → Ptr → Except Failure (List (Object w)) := onObject Object.incRef

/-- `if (p) Unref(p)`. -/
def unrefPtr : List (Object w) → Ptr → Except Failure (List (Object w)) := onObject Object.unref

namespace State

variable (s : State w)

/-- `ptr_` of a variable. -/
def get (v : ℕ) : Except Failure Ptr :=
  match s.vars[v]? with
  | some (some p) => .ok p
  | _ => .error .deadVariable

/-- `ptr_ = p`. -/
def setPtr (v : ℕ) (p : Ptr) : State w := { s with vars := s.vars.set v (some p) }

/-- One more variable. -/
def push (p : Ptr) : State w := { s with vars := s.vars ++ [some p] }

/-- `new T`. -/
def alloc : ℕ × State w := (s.objects.length, { s with objects := s.objects ++ [Object.new] })

/-- `scoped_refptr(T* p)`, and `scoped_refptr()` for the null pointer. -/
def construct (p : Ptr) : State w := s.push p

/-- `scoped_refptr(const scoped_refptr& r)`. -/
def copyConstruct (r : ℕ) : Except Failure (State w) := do
  let p ← s.get r
  let objects ← refPtr s.objects p
  return { s with objects := objects }.push p

/-- `scoped_refptr(scoped_refptr&& r)`. -/
def moveConstruct (r : ℕ) : Except Failure (State w) := do
  let p ← s.get r
  return (s.setPtr r none).push p

/-- `~scoped_refptr()`. -/
def destruct (v : ℕ) : Except Failure (State w) := do
  let p ← s.get v
  let objects ← unrefPtr s.objects p
  return ⟨objects, s.vars.set v none⟩

/-- `operator=(T* p)`. -/
def assignPtr (v : ℕ) (p : Ptr) : Except Failure (State w) := do
  let old ← s.get v
  let objects ← refPtr s.objects p
  let objects ← unrefPtr objects old
  return { s with objects := objects }.setPtr v p

/-- `operator=(const scoped_refptr& r)`. -/
def copyAssign (v r : ℕ) : Except Failure (State w) := do
  let p ← s.get r
  s.assignPtr v p

/-- `operator=(scoped_refptr&& r)`: a temporary is made by moving, swapped with the variable and
destroyed. -/
def moveAssign (v r : ℕ) : Except Failure (State w) := do
  let _ ← s.get v
  let p ← s.get r
  let s := s.setPtr r none
  let old ← s.get v
  let objects ← unrefPtr s.objects old
  return { s with objects := objects }.setPtr v p

/-- `operator=(const scoped_refptr&& r)`: the temporary is a copy. -/
def moveAssignConst (v r : ℕ) : Except Failure (State w) := do
  let old ← s.get v
  let p ← s.get r
  let objects ← refPtr s.objects p
  let objects ← unrefPtr objects old
  return { s with objects := objects }.setPtr v p

/-- `swap`. -/
def swap (v r : ℕ) : Except Failure (State w) := do
  let p ← s.get v
  let q ← s.get r
  return (s.setPtr v q).setPtr r p

end State

/-- What a program does. -/
inductive Op
  | constructFresh
  | constructNull
  | copyConstruct (r : ℕ)
  | moveConstruct (r : ℕ)
  | assignFresh (v : ℕ)
  | assignNull (v : ℕ)
  | copyAssign (v r : ℕ)
  | moveAssign (v r : ℕ)
  | moveAssignConst (v r : ℕ)
  | swap (v r : ℕ)
  | destruct (v : ℕ)
  deriving Repr, DecidableEq

/-- An operation.  A fresh pointer is handed over as it is made. -/
def State.exec (s : State w) : Op → Except Failure (State w)
  | .constructFresh => .ok (s.alloc.2.construct (some s.alloc.1))
  | .constructNull => .ok (s.construct none)
  | .copyConstruct r => s.copyConstruct r
  | .moveConstruct r => s.moveConstruct r
  | .assignFresh v => s.alloc.2.assignPtr v (some s.alloc.1)
  | .assignNull v => s.assignPtr v none
  | .copyAssign v r => s.copyAssign v r
  | .moveAssign v r => s.moveAssign v r
  | .moveAssignConst v r => s.moveAssignConst v r
  | .swap v r => s.swap v r
  | .destruct v => s.destruct v

/-- The same as a step. -/
def step (s : State w) (op : Op) : Except Failure (Unit × State w) := (s.exec op).map ((), ·)

/-- Nothing yet. -/
def init (w : ℕ) : State w := ⟨[], []⟩

/-! ### What it is for -/

/-- The number of variables that point to an object. -/
def pointers (vars : List (Option Ptr)) (o : ℕ) : ℕ := vars.count (some (some o))

/-- An object is destroyed when no variable points to it, and till then it counts those that do. -/
structure Sound (s : State w) : Prop where
  destroyed : ∀ o x, s.objects[o]? = some x → (x.destroyed = true ↔ pointers s.vars o = 0)
  count : ∀ o x, s.objects[o]? = some x → x.destroyed = false →
    x.ref.toInt = (pointers s.vars o : ℤ)

/-- The counts are sound after each operation of a program, as far as it uses variables that live. -/
def AlwaysSound (w : ℕ) : List Op → Prop := AlwaysEnds Sound (· = .deadVariable) step (init w)

/-- A variable points to an object. -/
def PointsTo (s : State w) (v o : ℕ) : Prop := s.get v = .ok (some o)

/-- No fresh object is assigned to a variable; and none that gets one pointer more has as many as its count
can say. -/
def Fits (s : State w) : Op → Prop
  | .assignFresh v => s.get v = .error .deadVariable
  | .copyConstruct r => ∀ o, PointsTo s r o → pointers s.vars o + 1 < 2 ^ (w - 1)
  | .copyAssign v r | .moveAssignConst v r =>
    ∀ p o, s.get v = .ok p → PointsTo s r o → p ≠ some o → pointers s.vars o + 1 < 2 ^ (w - 1)
  | _ => True

/-! ### Numbers for objects -/

/-- One more for the object pointed to. -/
def inc (c : ℕ → ℕ) (p : Ptr) (o : ℕ) : ℕ := c o + if p = some o then 1 else 0

/-- One less. -/
def dec (c : ℕ → ℕ) (p : Ptr) (o : ℕ) : ℕ := c o - if p = some o then 1 else 0

@[simp] theorem inc_none (c : ℕ → ℕ) : inc c none = c := by
  funext o
  simp [inc]

@[simp] theorem dec_none (c : ℕ → ℕ) : dec c none = c := by
  funext o
  simp [dec]

/-- The objects that live are those with a number, and they count it. -/
structure Holds (objects : List (Object w)) (c : ℕ → ℕ) : Prop where
  dead : ∀ o, (∀ x, objects[o]? = some x → x.destroyed = true) → c o = 0
  alive : ∀ o x, objects[o]? = some x → x.destroyed = false → 0 < c o ∧ x.ref = BitVec.ofNat w (c o)

section Holds

variable {objects : List (Object w)} {c : ℕ → ℕ} {p : Ptr}

/-- An object with a number lives. -/
theorem Holds.exists_alive (h : Holds objects c) {o : ℕ} (ho : 0 < c o) :
    ∃ x, objects[o]? = some x ∧ x.destroyed = false ∧ x.ref = BitVec.ofNat w (c o) := by
  by_contra hno
  refine ho.ne' (h.dead o fun x hx => ?_)
  by_contra hlives
  have hfalse : x.destroyed = false := by simpa using hlives
  exact hno ⟨x, hx, hfalse, (h.alive o x hx hfalse).2⟩

/-- What replaces one object. -/
theorem Holds.set (h : Holds objects c) {o : ℕ} {x y : Object w} (hx : objects[o]? = some x) {n : ℕ}
    (hy : if y.destroyed then n = 0 else 0 < n ∧ y.ref = BitVec.ofNat w n) {c' : ℕ → ℕ} (hc : c' o = n)
    (hc' : ∀ o', o' ≠ o → c' o' = c o') : Holds (objects.set o y) c' := by
  have hlt := (List.getElem?_eq_some_iff.mp hx).1
  refine ⟨fun o' hdead => ?_, fun o' x' hx' hlives => ?_⟩
  · by_cases ho : o' = o
    · subst ho
      have hy' := hdead y (List.getElem?_set_self hlt)
      rw [if_pos hy'] at hy
      rw [hc, hy]
    · rw [hc' o' ho]
      refine h.dead o' fun x' hx' => hdead x' ?_
      rwa [List.getElem?_set_ne (Ne.symm ho)]
  · by_cases ho : o' = o
    · subst ho
      rw [List.getElem?_set_self hlt, Option.some.injEq] at hx'
      subst hx'
      rw [if_neg (by rw [hlives]; exact Bool.false_ne_true)] at hy
      rwa [hc]
    · rw [List.getElem?_set_ne (Ne.symm ho)] at hx'
      rw [hc' o' ho]
      exact h.alive o' x' hx' hlives

/-- `Ref` counts one more. -/
theorem Holds.refPtr (h : Holds objects c) (hp : ∀ o, p = some o → 0 < c o) :
    ∃ objects', refPtr objects p = .ok objects' ∧ Holds objects' (inc c p) := by
  cases p with
  | none => exact ⟨objects, rfl, by rwa [inc_none]⟩
  | some o =>
    obtain ⟨x, hx, hlives, href⟩ := h.exists_alive (hp o rfl)
    refine ⟨objects.set o x.incRef, ?_, h.set hx (n := c o + 1) ?_ ?_ ?_⟩
    · simp [ScopedRefptr.refPtr, onObject, hx, hlives]
    · rw [Object.incRef, if_neg (by simp [hlives]), href, BitVec.ofNat_add]
      exact ⟨Nat.succ_pos _, rfl⟩
    · simp [inc]
    · intro o' ho'
      simp [inc, Ne.symm ho']

/-- `Unref` counts one less, and destroys an object of which it has counted the last. -/
theorem Holds.unrefPtr (h : Holds objects c) (hp : ∀ o, p = some o → 0 < c o ∧ c o < 2 ^ w) :
    ∃ objects', unrefPtr objects p = .ok objects' ∧ Holds objects' (dec c p) := by
  cases p with
  | none => exact ⟨objects, rfl, by rwa [dec_none]⟩
  | some o =>
    obtain ⟨hpos, hlt⟩ := hp o rfl
    obtain ⟨x, hx, hlives, href⟩ := h.exists_alive hpos
    have hone : x.ref = 1 ↔ c o = 1 := by
      rw [href]
      constructor
      · intro h
        have hmod := congrArg BitVec.toNat h
        simp only [BitVec.toNat_ofNat, Nat.mod_eq_of_lt hlt] at hmod
        have hle : 1 % 2 ^ w ≤ 1 := Nat.mod_le 1 _
        have hval : (1 : BitVec w).toNat = 1 % 2 ^ w := rfl
        omega
      · intro h
        rw [h]
        rfl
    refine ⟨objects.set o x.unref, ?_, h.set hx (n := c o - 1) ?_ ?_ ?_⟩
    · simp [ScopedRefptr.unrefPtr, onObject, hx, hlives]
    · rw [Object.unref]
      by_cases hlast : x.ref = 1
      · rw [if_pos hlast, if_pos rfl, hone.mp hlast]
      · have hmore : c o ≠ 1 := fun h => hlast (hone.mpr h)
        rw [if_neg hlast, if_neg (by rw [decide_eq_false hlast]; exact Bool.false_ne_true)]
        refine ⟨by omega, ?_⟩
        obtain ⟨n, hn⟩ : ∃ n, c o = n + 1 := ⟨c o - 1, by omega⟩
        rw [href, hn, BitVec.ofNat_add, Nat.add_sub_cancel]
        exact BitVec.add_sub_cancel _ _
    · simp [dec]
    · intro o' ho'
      simp [dec, Ne.symm ho']

/-- A fresh object has been counted once. -/
theorem Holds.alloc (h : Holds objects c) : Holds (objects ++ [Object.new]) (inc c (some objects.length)) := by
  have hnone : c objects.length = 0 := h.dead _ fun x hx => by simp at hx
  refine ⟨fun o hdead => ?_, fun o x hx hlives => ?_⟩
  · have ho : objects.length ≠ o := by
      rintro rfl
      have hnew := hdead Object.new (by simp)
      simp [Object.new] at hnew
    simp only [inc, Option.some.injEq, ho, if_false, Nat.add_zero]
    refine h.dead o fun x hx => hdead x ?_
    rw [List.getElem?_append_left (List.getElem?_eq_some_iff.mp hx).1, hx]
  · rcases Nat.lt_trichotomy o objects.length with hlt | rfl | hgt
    · rw [List.getElem?_append_left hlt] at hx
      simpa [inc, hlt.ne'] using h.alive o x hx hlives
    · rw [List.getElem?_concat_length, Option.some.injEq] at hx
      subst hx
      simp [inc, hnone, Object.new]
    · rw [List.getElem?_eq_none (by simp; omega)] at hx
      cases hx

end Holds

/-! ### Numbers of pointers -/

section Pointers

variable {vars : List (Option Ptr)} {v : ℕ} {p : Ptr}

theorem pointers_push (vars : List (Option Ptr)) (p : Ptr) :
    pointers (vars ++ [some p]) = inc (pointers vars) p := by
  funext o
  rw [pointers, List.count_append, List.count_singleton, inc]
  simp [pointers]

theorem pointers_set (hv : vars[v]? = some (some p)) (q : Ptr) :
    pointers (vars.set v (some q)) = inc (dec (pointers vars) p) q := by
  funext o
  obtain ⟨hlt, hget⟩ := List.getElem?_eq_some_iff.mp hv
  rw [pointers, List.count_set hlt, hget]
  simp [inc, dec, pointers]

theorem pointers_kill (hv : vars[v]? = some (some p)) : pointers (vars.set v none) = dec (pointers vars) p := by
  funext o
  obtain ⟨hlt, hget⟩ := List.getElem?_eq_some_iff.mp hv
  rw [pointers, List.count_set hlt, hget]
  simp [dec, pointers]

/-- What a variable points to has a pointer. -/
theorem pointers_pos (hv : vars[v]? = some (some p)) (o : ℕ) (hp : p = some o) : 0 < pointers vars o :=
  List.count_pos_iff.mpr (hp ▸ List.mem_of_getElem? hv)

theorem get_eq_ok {s : State w} : s.get v = .ok p ↔ s.vars[v]? = some (some p) := by
  rw [State.get]
  split <;> simp_all

theorem get_eq_error {s : State w} {e : Failure} (h : s.get v = .error e) : e = .deadVariable := by
  rw [State.get] at h
  split at h <;> simp_all

end Pointers

/-! ### Operations -/

/-- The invariant: the objects hold the numbers of pointers, and each can be said by a count. -/
structure Inv (s : State w) : Prop where
  holds : Holds s.objects (pointers s.vars)
  room : ∀ o, pointers s.vars o < 2 ^ (w - 1)

section Operations

variable {s : State w} {v r : ℕ} {old p : Ptr}

theorem toInt_ofNat_of_lt {n : ℕ} (hw : 0 < w) (hn : n < 2 ^ (w - 1)) :
    (BitVec.ofNat w n).toInt = (n : ℤ) := by
  have hpow : 2 ^ w = 2 * 2 ^ (w - 1) := by
    rw [← Nat.pow_succ', Nat.succ_eq_add_one, Nat.sub_add_cancel hw]
  have hnat : (BitVec.ofNat w n).toNat = n := by
    rw [BitVec.toNat_ofNat]
    exact Nat.mod_eq_of_lt (by omega)
  rw [BitVec.toInt_eq_toNat_of_lt (by omega), hnat]

/-- Objects that hold the numbers of pointers are sound if their counts can say them, and only then. -/
theorem sound_iff (hw : 0 < w) (h : Holds s.objects (pointers s.vars)) :
    Sound s ↔ ∀ o, pointers s.vars o < 2 ^ (w - 1) := by
  constructor
  · intro hsound o
    rcases Nat.eq_zero_or_pos (pointers s.vars o) with hzero | hpos
    · rw [hzero]
      exact Nat.two_pow_pos _
    · obtain ⟨x, hx, hlives, -⟩ := h.exists_alive hpos
      have hlt := BitVec.toInt_lt (x := x.ref)
      rw [hsound.count o x hx hlives] at hlt
      exact_mod_cast hlt
  · intro hroom
    refine ⟨fun o x hx => ⟨fun hdestroyed => ?_, fun hzero => ?_⟩, fun o x hx hlives => ?_⟩
    · refine h.dead o fun y hy => ?_
      rwa [← Option.some.inj (hx.symm.trans hy)]
    · by_contra hlives
      exact (h.alive o x hx (by simpa using hlives)).1.ne' hzero
    · rw [(h.alive o x hx hlives).2, toInt_ofNat_of_lt hw (hroom o)]

/-- A reference is given up after another is taken. -/
theorem dec_inc_comm {c : ℕ → ℕ} {p q : Ptr} (hp : ∀ o, p = some o → 0 < c o) :
    dec (inc c q) p = inc (dec c p) q := by
  funext o
  simp only [dec, inc]
  by_cases ho : p = some o
  · have hpos := hp o ho
    rw [if_pos ho]
    omega
  · rw [if_neg ho]
    rfl

theorem inc_dec_self {c : ℕ → ℕ} (hp : ∀ o, p = some o → 0 < c o) : inc (dec c p) p = c := by
  funext o
  simp only [dec, inc]
  split_ifs with ho
  · exact Nat.sub_add_cancel (hp o ho)
  · rfl

theorem inc_le (c : ℕ → ℕ) (p : Ptr) (o : ℕ) : inc c p o ≤ c o + 1 := by
  rw [inc]
  split_ifs <;> omega

theorem dec_le (c : ℕ → ℕ) (p : Ptr) (o : ℕ) : dec c p o ≤ c o := Nat.sub_le _ _

variable (hw : 32 ≤ w)

include hw

theorem lt_two_pow {n : ℕ} (hn : n ≤ 2 ^ (w - 1)) : n < 2 ^ w :=
  hn.trans_lt (Nat.pow_lt_pow_right (by decide) (by omega))

/-- `operator=(T*)`, whatever number the objects hold. -/
theorem assignPtr_holds {c : ℕ → ℕ} (h : Holds s.objects c) (hroom : ∀ o, c o < 2 ^ (w - 1))
    (hv : s.vars[v]? = some (some old)) (hold : ∀ o, old = some o → 0 < c o)
    (hp : ∀ o, p = some o → 0 < c o) :
    ∃ objects, s.assignPtr v p = .ok ⟨objects, s.vars.set v (some p)⟩ ∧
      Holds objects (dec (inc c p) old) := by
  obtain ⟨objects₁, href, h₁⟩ := h.refPtr hp
  obtain ⟨objects₂, hunref, h₂⟩ := h₁.unrefPtr (p := old) fun o ho =>
    ⟨(hold o ho).trans_le (Nat.le_add_right _ _),
      lt_two_pow hw ((inc_le c p o).trans (hroom o))⟩
  refine ⟨objects₂, ?_, h₂⟩
  rw [State.assignPtr, get_eq_ok.mpr hv]
  simp only [bind, Except.bind, href, hunref]
  rfl

variable (h : Inv s)

include h

theorem moveAssign_holds (hv : s.vars[v]? = some (some old)) (hr : s.vars[r]? = some (some p)) :
    ∃ s', s.moveAssign v r = .ok s' ∧ Holds s'.objects (pointers s'.vars) ∧
      ∀ o, pointers s'.vars o ≤ pointers s.vars o := by
  have hvlt := (List.getElem?_eq_some_iff.mp hv).1
  obtain ⟨mine, hmine⟩ : ∃ mine, (s.vars.set r (some none))[v]? = some (some mine) := by
    by_cases hrv : r = v
    · exact ⟨none, by rw [hrv, List.getElem?_set_self hvlt]⟩
    · exact ⟨old, by rw [List.getElem?_set_ne hrv, hv]⟩
  have htaken : pointers (s.vars.set r (some none)) = dec (pointers s.vars) p := by
    rw [pointers_set hr, inc_none]
  have hpos (o : ℕ) (ho : mine = some o) : 0 < dec (pointers s.vars) p o := by
    rw [← htaken]
    exact pointers_pos hmine o ho
  obtain ⟨objects, hunref, hholds⟩ := h.holds.unrefPtr (p := mine) fun o ho =>
    ⟨(hpos o ho).trans_le (dec_le _ _ _), lt_two_pow hw (h.room o).le⟩
  have hfinal : pointers ((s.vars.set r (some none)).set v (some p)) = dec (pointers s.vars) mine := by
    rw [pointers_set hmine, htaken, ← dec_inc_comm hpos, inc_dec_self (pointers_pos hr)]
  refine ⟨⟨objects, (s.vars.set r (some none)).set v (some p)⟩, ?_, ?_, fun o => ?_⟩
  · rw [State.moveAssign, get_eq_ok.mpr hv, get_eq_ok.mpr hr]
    simp only [bind, Except.bind]
    rw [(get_eq_ok (s := s.setPtr r none)).mpr hmine]
    simp only [State.setPtr, hunref]
    rfl
  · rw [hfinal]
    exact hholds
  · rw [hfinal]
    exact dec_le _ _ _

theorem destruct_holds (hv : s.vars[v]? = some (some p)) :
    ∃ s', s.destruct v = .ok s' ∧ Holds s'.objects (pointers s'.vars) ∧
      ∀ o, pointers s'.vars o ≤ pointers s.vars o := by
  obtain ⟨objects, hunref, hholds⟩ := h.holds.unrefPtr (p := p) fun o ho =>
    ⟨pointers_pos hv o ho, lt_two_pow hw (h.room o).le⟩
  refine ⟨⟨objects, s.vars.set v none⟩, ?_, ?_, fun o => ?_⟩
  · rw [State.destruct, get_eq_ok.mpr hv]
    simp only [bind, Except.bind, hunref]
    rfl
  · rw [pointers_kill hv]
    exact hholds
  · rw [pointers_kill hv]
    exact dec_le _ _ _

omit hw

theorem copyConstruct_holds (hr : s.vars[r]? = some (some p)) :
    ∃ objects, s.copyConstruct r = .ok ⟨objects, s.vars ++ [some p]⟩ ∧
      Holds objects (inc (pointers s.vars) p) := by
  obtain ⟨objects, href, hholds⟩ := h.holds.refPtr (pointers_pos hr)
  refine ⟨objects, ?_, hholds⟩
  rw [State.copyConstruct, get_eq_ok.mpr hr]
  simp only [bind, Except.bind, href]
  rfl

theorem moveConstruct_holds (hr : s.vars[r]? = some (some p)) :
    ∃ s', s.moveConstruct r = .ok s' ∧ Holds s'.objects (pointers s'.vars) ∧
      ∀ o, pointers s'.vars o ≤ pointers s.vars o := by
  have hfinal : pointers (s.vars.set r (some none) ++ [some p]) = pointers s.vars := by
    rw [pointers_push, pointers_set hr, inc_none, inc_dec_self (pointers_pos hr)]
  refine ⟨⟨s.objects, s.vars.set r (some none) ++ [some p]⟩, ?_, ?_, fun o => ?_⟩
  · rw [State.moveConstruct, get_eq_ok.mpr hr]
    rfl
  · rw [hfinal]
    exact h.holds
  · rw [hfinal]

theorem swap_holds (hv : s.vars[v]? = some (some old)) (hr : s.vars[r]? = some (some p)) :
    ∃ s', s.swap v r = .ok s' ∧ Holds s'.objects (pointers s'.vars) ∧
      ∀ o, pointers s'.vars o ≤ pointers s.vars o := by
  have hr' : (s.vars.set v (some p))[r]? = some (some p) := by
    by_cases hvr : v = r
    · rw [hvr, List.getElem?_set_self (List.getElem?_eq_some_iff.mp hr).1]
    · rw [List.getElem?_set_ne hvr, hr]
  have hfinal : pointers ((s.vars.set v (some p)).set r (some old)) = pointers s.vars := by
    have hback : dec (inc (dec (pointers s.vars) old) p) p = dec (pointers s.vars) old := by
      funext o
      simp [dec, inc]
    rw [pointers_set hr', pointers_set hv, hback, inc_dec_self (pointers_pos hv)]
  refine ⟨⟨s.objects, (s.vars.set v (some p)).set r (some old)⟩, ?_, ?_, fun o => ?_⟩
  · rw [State.swap, get_eq_ok.mpr hv, get_eq_ok.mpr hr]
    rfl
  · rw [hfinal]
    exact h.holds
  · rw [hfinal]

end Operations

/-! ### Programs -/

section Programs

variable {s : State w}

/-- A variable lives, or cannot be used. -/
theorem live_or_dead (s : State w) (v : ℕ) :
    (∃ p, s.vars[v]? = some (some p)) ∨ s.get v = .error .deadVariable := by
  cases hget : s.get v with
  | ok p => exact .inl ⟨p, get_eq_ok.mp hget⟩
  | error e => exact .inr (by rw [get_eq_error hget])

theorem pointsTo_iff {v o : ℕ} {p : Ptr} (hv : s.vars[v]? = some (some p)) : PointsTo s v o ↔ p = some o := by
  rw [PointsTo, get_eq_ok.mpr hv, Except.ok.injEq]

/-- How an operation ends: at a dead variable, or in a state that is sound exactly if the operation fits. -/
def Outcome (s : State w) (op : Op) : Except Failure (State w) → Prop
  | .error e => e = .deadVariable ∧ Fits s op
  | .ok s' => (Fits s op → Inv s') ∧ (Sound s' → Fits s op)

/-- An operation after which no object has more pointers. -/
theorem outcome_of_le (op : Op) (h : Inv s) (hfits : Fits s op) {x : Except Failure (State w)}
    (hx : ∃ s', x = .ok s' ∧ Holds s'.objects (pointers s'.vars) ∧
      ∀ o, pointers s'.vars o ≤ pointers s.vars o) : Outcome s op x := by
  obtain ⟨s', rfl, hholds, hle⟩ := hx
  exact ⟨fun _ => ⟨hholds, fun o => (hle o).trans_lt (h.room o)⟩, fun _ => hfits⟩

/-- An operation that fits if what it leaves can be counted. -/
theorem outcome_of_holds (hw : 32 ≤ w) {op : Op} {objects : List (Object w)} {vars : List (Option Ptr)}
    (hholds : Holds objects (pointers vars))
    (hroom : (∀ o, pointers vars o < 2 ^ (w - 1)) ↔ Fits s op) : Outcome s op (.ok ⟨objects, vars⟩) := by
  refine ⟨fun hfits => ⟨hholds, hroom.mpr hfits⟩, fun hsound => ?_⟩
  exact hroom.mp ((sound_iff (s := ⟨objects, vars⟩) (by omega) hholds).mp hsound)

theorem copyConstruct_outcome (hw : 32 ≤ w) (h : Inv s) (r : ℕ) :
    Outcome s (.copyConstruct r) (s.copyConstruct r) := by
  rcases live_or_dead s r with ⟨p, hr⟩ | hdead
  · obtain ⟨objects, hres, hholds⟩ := copyConstruct_holds h hr
    rw [hres]
    rw [← pointers_push] at hholds
    refine outcome_of_holds hw hholds ⟨fun hroom o ho => ?_, fun hfits o => ?_⟩
    · have hpo := (pointsTo_iff hr).mp ho
      have hlt := hroom o
      rwa [pointers_push, inc, if_pos hpo] at hlt
    · rw [pointers_push, inc]
      split_ifs with hpo
      · exact hfits o ((pointsTo_iff hr).mpr hpo)
      · exact h.room o
  · rw [State.copyConstruct, hdead]
    refine ⟨rfl, fun o ho => ?_⟩
    rw [PointsTo, hdead] at ho
    cases ho

theorem moveAssignConst_eq (s : State w) (v r : ℕ) : s.moveAssignConst v r = s.copyAssign v r := by
  rw [State.moveAssignConst, State.copyAssign]
  rcases live_or_dead s r with ⟨p, hr⟩ | hr
  · rw [get_eq_ok.mpr hr]
    rfl
  · rcases live_or_dead s v with ⟨old, hv⟩ | hv
    · rw [get_eq_ok.mpr hv, hr]
      rfl
    · rw [hv, hr]
      rfl

theorem copyAssign_outcome (hw : 32 ≤ w) (h : Inv s) (v r : ℕ) :
    Outcome s (.copyAssign v r) (s.copyAssign v r) := by
  rcases live_or_dead s r with ⟨p, hr⟩ | hdead
  · rcases live_or_dead s v with ⟨old, hv⟩ | hdead
    · obtain ⟨objects, hres, hholds⟩ :=
        assignPtr_holds hw h.holds h.room hv (pointers_pos hv) (pointers_pos hr)
      rw [State.copyAssign, get_eq_ok.mpr hr]
      simp only [bind, Except.bind]
      rw [hres]
      rw [dec_inc_comm (pointers_pos hv), ← pointers_set hv] at hholds
      refine outcome_of_holds hw hholds ⟨fun hroom q o hq ho hne => ?_, fun hfits o => ?_⟩
      · have hpo := (pointsTo_iff hr).mp ho
        have hold : old = q := Except.ok.inj ((get_eq_ok.mpr hv).symm.trans hq)
        have hlt := hroom o
        rwa [pointers_set hv, inc, dec, if_pos hpo, if_neg (hold ▸ hne)] at hlt
      · have hlt := h.room o
        rw [pointers_set hv, inc, dec]
        by_cases hpo : p = some o
        · rw [if_pos hpo]
          by_cases hold : old = some o
          · have hpos := pointers_pos hv o hold
            rw [if_pos hold]
            omega
          · rw [if_neg hold]
            exact hfits old o (get_eq_ok.mpr hv) ((pointsTo_iff hr).mpr hpo) hold
        · rw [if_neg hpo]
          exact (Nat.sub_le _ _).trans_lt hlt
    · rw [State.copyAssign, get_eq_ok.mpr hr]
      simp only [bind, Except.bind, State.assignPtr, hdead]
      refine ⟨rfl, fun q o hq => ?_⟩
      rw [hdead] at hq
      cases hq
  · rw [State.copyAssign, hdead]
    refine ⟨rfl, fun q o _ ho => ?_⟩
    rw [PointsTo, hdead] at ho
    cases ho

/-- A fresh object that is assigned has two references, and one pointer. -/
theorem assignFresh_outcome (hw : 32 ≤ w) (h : Inv s) (v : ℕ) :
    Outcome s (.assignFresh v) (s.exec (.assignFresh v)) := by
  rcases live_or_dead s v with ⟨old, hv⟩ | hdead
  · have hpow : 2 ^ 31 ≤ 2 ^ (w - 1) := Nat.pow_le_pow_right (by decide) (by omega)
    have hfresh : pointers s.vars s.objects.length = 0 := h.holds.dead _ fun x hx => by simp at hx
    have hne : old ≠ some s.objects.length := fun ho => (pointers_pos hv _ ho).ne' hfresh
    have hroom (o : ℕ) : inc (pointers s.vars) (some s.objects.length) o < 2 ^ (w - 1) := by
      have hlt := h.room o
      rw [inc]
      split_ifs with ho
      · cases ho
        omega
      · exact hlt
    obtain ⟨objects, hres, hholds⟩ := assignPtr_holds (s := s.alloc.2) (p := some s.objects.length) hw
      h.holds.alloc hroom hv (fun o ho => (pointers_pos hv o ho).trans_le (Nat.le_add_right _ _))
      (fun o ho => by simp [inc, ho])
    have htwo : dec (inc (inc (pointers s.vars) (some s.objects.length)) (some s.objects.length)) old
        s.objects.length = 2 := by
      simp [dec, inc, hfresh, hne]
    have hone : pointers (s.vars.set v (some (some s.objects.length))) s.objects.length = 1 := by
      rw [pointers_set hv]
      simp [dec, inc, hfresh]
    obtain ⟨x, hx, hlives, href⟩ := hholds.exists_alive (o := s.objects.length) (by omega)
    rw [State.exec, show s.alloc.1 = s.objects.length from rfl, hres]
    refine ⟨fun hfits => ?_, fun hsound => ?_⟩
    · rw [Fits, get_eq_ok.mpr hv] at hfits
      cases hfits
    · have hcount := hsound.count _ x hx hlives
      have hone' : pointers (s.alloc.2.vars.set v (some (some s.objects.length))) s.objects.length = 1 :=
        hone
      rw [href, htwo, toInt_ofNat_of_lt (by omega) (by omega), hone'] at hcount
      cases hcount
  · have hdead' : s.alloc.2.get v = .error .deadVariable := hdead
    rw [State.exec, State.assignPtr, hdead']
    exact ⟨rfl, hdead⟩

/-- **What every operation does.** -/
theorem exec_outcome (hw : 32 ≤ w) (h : Inv s) (op : Op) : Outcome s op (s.exec op) := by
  cases op with
  | constructFresh =>
    have hholds := h.holds.alloc
    rw [← pointers_push] at hholds
    have hpow : 2 ^ 31 ≤ 2 ^ (w - 1) := Nat.pow_le_pow_right (by decide) (by omega)
    have hfresh : pointers s.alloc.2.vars s.alloc.1 = 0 := h.holds.dead _ fun x hx => by
      simp [State.alloc] at hx
    refine outcome_of_holds hw hholds (iff_of_true (fun o => ?_) trivial)
    have hlt : pointers s.alloc.2.vars o < 2 ^ (w - 1) := h.room o
    rw [pointers_push, inc]
    split_ifs with ho
    · cases ho
      omega
    · exact hlt
  | constructNull =>
    refine outcome_of_le .constructNull h trivial ⟨s.push none, rfl, ?_⟩
    rw [State.push, pointers_push, inc_none]
    exact ⟨h.holds, fun o => le_rfl⟩
  | copyConstruct r => exact copyConstruct_outcome hw h r
  | moveConstruct r =>
    rcases live_or_dead s r with ⟨p, hr⟩ | hdead
    · exact outcome_of_le (.moveConstruct r) h trivial (moveConstruct_holds h hr)
    · rw [State.exec, State.moveConstruct, hdead]
      exact ⟨rfl, trivial⟩
  | assignFresh v => exact assignFresh_outcome hw h v
  | assignNull v =>
    rcases live_or_dead s v with ⟨old, hv⟩ | hdead
    · obtain ⟨objects, hres, hholds⟩ :=
        assignPtr_holds (p := none) hw h.holds h.room hv (pointers_pos hv) (by simp)
      rw [inc_none] at hholds
      have hfinal : pointers (s.vars.set v (some none)) = dec (pointers s.vars) old := by
        rw [pointers_set hv, inc_none]
      refine outcome_of_le (.assignNull v) h trivial ⟨_, hres, hfinal ▸ hholds, fun o => ?_⟩
      rw [hfinal]
      exact dec_le _ _ _
    · rw [State.exec, State.assignPtr, hdead]
      exact ⟨rfl, trivial⟩
  | copyAssign v r => exact copyAssign_outcome hw h v r
  | moveAssign v r =>
    rcases live_or_dead s v with ⟨old, hv⟩ | hdead
    · rcases live_or_dead s r with ⟨p, hr⟩ | hdead
      · exact outcome_of_le (.moveAssign v r) h trivial (moveAssign_holds hw h hv hr)
      · rw [State.exec, State.moveAssign, get_eq_ok.mpr hv, hdead]
        exact ⟨rfl, trivial⟩
    · rw [State.exec, State.moveAssign, hdead]
      exact ⟨rfl, trivial⟩
  | moveAssignConst v r =>
    rw [State.exec, moveAssignConst_eq]
    exact copyAssign_outcome hw h v r
  | swap v r =>
    rcases live_or_dead s v with ⟨old, hv⟩ | hdead
    · rcases live_or_dead s r with ⟨p, hr⟩ | hdead
      · exact outcome_of_le (.swap v r) h trivial (swap_holds h hv hr)
      · rw [State.exec, State.swap, get_eq_ok.mpr hv, hdead]
        exact ⟨rfl, trivial⟩
    · rw [State.exec, State.swap, hdead]
      exact ⟨rfl, trivial⟩
  | destruct v =>
    rcases live_or_dead s v with ⟨p, hv⟩ | hdead
    · exact outcome_of_le (.destruct v) h trivial (destruct_holds hw h hv)
    · rw [State.exec, State.destruct, hdead]
      exact ⟨rfl, trivial⟩

theorem inv_init (w : ℕ) : Inv (init w) :=
  ⟨⟨fun _ _ => rfl, fun o x hx => by simp [init] at hx⟩, fun _ => Nat.two_pow_pos _⟩

/-- **Counts are sound.**  At every point of a program each object counts its pointers, and is destroyed when
there is none, exactly when no fresh object is assigned to a variable, and no object gets more pointers than
its count can say. -/
theorem refptr_sound_iff (hw : 32 ≤ w) (ops : List Op) :
    AlwaysSound w ops ↔ ∀ p ∈ steps step (init w) ops, Fits p.1 p.2 := by
  have hsound (s : State w) (h : Inv s) : Sound s := (sound_iff (by omega) h.holds).mpr h.room
  have hlegal : ∀ op ∈ ops, (fun _ : Op => True) op := fun _ _ => trivial
  refine alwaysEnds_iff_guarded hsound ?_ ?_ (inv_init w) hlegal
  · intro s op h _ hfits
    have hout := exec_outcome hw h op
    rw [step]
    cases hres : s.exec op with
    | error e =>
      rw [hres] at hout
      exact hout.1
    | ok s' =>
      rw [hres] at hout
      exact hout.1 hfits
  · intro s op h _ hfits hends
    have hout := exec_outcome hw h op
    rw [step] at hends
    cases hres : s.exec op with
    | error e =>
      rw [hres] at hout
      exact hfits hout.2
    | ok s' =>
      rw [hres] at hout hends
      exact hfits (hout.2 hends)

theorem refptr_sound_sixtyFour :
    AlwaysSound 64 [.constructFresh, .copyConstruct 0, .moveAssign 0 1, .destruct 1, .swap 0 0, .destruct 0] ↔
      ∀ p ∈ steps step (init 64)
        [.constructFresh, .copyConstruct 0, .moveAssign 0 1, .destruct 1, .swap 0 0, .destruct 0],
        Fits p.1 p.2 :=
  refptr_sound_iff (by decide) _

/-- `scoped_refptr<T> p; p = new T;` -/
theorem not_alwaysSound_assignFresh : ¬ AlwaysSound 64 [.constructNull, .assignFresh 0] := by
  intro h
  have hends := h _ List.prefix_rfl
  have hsound : Sound (w := 64) ⟨[⟨2, false⟩], [some (some 0)]⟩ := hends
  have hcount := hsound.count 0 ⟨2, false⟩ rfl rfl
  revert hcount
  decide

end Programs

end

end LearnNetlib.ScopedRefptr
