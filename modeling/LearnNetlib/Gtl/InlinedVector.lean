import LearnNetlib.Foundations.Loops
import LearnNetlib.Foundations.ObjectStorage
import Mathlib.Algebra.Group.Int.Defs
import Mathlib.Algebra.GroupWithZero.Nat

/-!
# A vector with inline storage (`gtl/inlined_vector.h`)

The union `u_` is `kSize` bytes in three overlapping views: the slots of the inline elements, the
pointer in the first eight bytes, and the word in the last eight, whose last byte is the tag.  Using
the bytes one way ends what lived there another way.

* `ElementType` — what the code knows of `T` and `N`; `kSize`, `kFit` and the layout facts;
* `InlinedVector` — the object, `size`, `capacity`, `data` and the setters, which read and write
  bytes;
* `grow`, `emplaceBack`, `resize`, `insert`, `erase`, `assign`, `swap`, … — the operations, with
  `none` for an access to memory that holds no object or for a failed `CHECK`;
* `Rep` — the encoding every operation re-establishes, with `store_rep`, `setSize_rep` and
  **`grow_rep`**, the three ways of changing it.
-/

namespace LearnNetlib.Gtl

open ObjectStorage

/-! ### The element type -/

/-- What the code of `InlinedVector<T, N>` knows of its parameters. -/
structure ElementType (T : Type) where
  N : ℕ
  sizeof : ℕ
  sizeof_pos : 0 < sizeof
  /-- `std::is_trivially_destructible<T>::value`. -/
  triviallyDestructible : Bool
  /-- `T()`. -/
  init : T
  /-- What a move leaves behind. -/
  moved : T → T
  /-- The bytes of the buffer while objects live in its slots. -/
  bytes : Cells T → ℕ → UInt8

namespace ElementType

variable {T : Type} (E : ElementType T)

def kSizeUnaligned : ℕ := E.N * E.sizeof + 1

def kSize : ℕ := (E.kSizeUnaligned + 15) / 16 * 16

def kSentinel : ℕ := 255

def kFit1 : ℕ := (E.kSize - 1) / E.sizeof

def kFit : ℕ := if E.kFit1 ≥ kSentinel then kSentinel - 1 else E.kFit1

/-- The pointer and the word do not overlap. -/
theorem sixteen_le_kSize : 16 ≤ E.kSize := by
  unfold kSize kSizeUnaligned
  omega

theorem kFit_lt : E.kFit < 255 := by
  unfold kFit kSentinel
  split <;> omega

theorem kFit_le_kFit1 : E.kFit ≤ E.kFit1 := by
  unfold kFit
  split <;> omega

/-- **No slot reaches the tag.** -/
theorem kFit_mul_sizeof_le : E.kFit * E.sizeof ≤ E.kSize - 1 :=
  (Nat.mul_le_mul_right E.sizeof E.kFit_le_kFit1).trans (Nat.div_mul_le_self _ _)

/-- The capacity asked for is there, unless it does not fit the tag. -/
theorem N_le_kFit (h : E.N < 255) : E.N ≤ E.kFit := by
  have hsize : E.N * E.sizeof ≤ E.kSize - 1 := by
    unfold kSize kSizeUnaligned
    omega
  have hfit : E.N ≤ E.kFit1 := (Nat.le_div_iff_mul_le E.sizeof_pos).mpr hsize
  unfold kFit kSentinel
  split <;> omega

/-- `InlinedVector<uint32_t, N>`. -/
def uint32 (N : ℕ) : ElementType UInt32 where
  N := N
  sizeof := 4
  sizeof_pos := by decide
  triviallyDestructible := true
  init := 0
  moved := id
  bytes cs k := ((read cs (k / 4)).map fun x => UInt8.ofNat (x.toNat / 2 ^ (8 * (k % 4)))).getD 0

/-- `Destroy(T* src, int n)`: the `size_t` given for `n` becomes an `int`. -/
def destroyObjects (cs : Cells T) (k n : ℕ) : Option (Cells T) :=
  if E.triviallyDestructible then some cs else destroy cs k (Int.bmod n (2 ^ 32)).toNat

end ElementType

/-! ### The object -/

/-- A block of the heap. The number tells the blocks of one vector apart. -/
structure Block (T : Type) where
  id : ℕ
  cells : Cells T

/-- `InlinedVector`: the union `u_`. -/
structure InlinedVector (T : Type) where
  /-- The inline elements: slot `i` is the bytes from `i * sizeof(T)` on. -/
  slots : Cells T
  /-- `u_.data[kSize - 8 .. kSize - 1]`. -/
  tail : Fin 8 → UInt8
  /-- The block the first eight bytes point at, if they do. -/
  pointer : Option (Block T)

/-- What a `const T&` refers to: an object elsewhere, a slot of the union or a cell of a block. -/
inductive Ref (T : Type)
  | outside (x : T)
  | slot (i : ℕ)
  | inBlock (id i : ℕ)

/-- The movers of `Grow`. -/
inductive Mover
  | nop
  | move

namespace InlinedVector

variable {T : Type} (E : ElementType T)

/-! ### The representation -/

/-- `is_inline`. -/
def isInline (v : InlinedVector T) : Bool := v.tail 7 != 255

/-- `outofline_word`, on a machine with `kLittleEndian`. -/
def outoflineWord (v : InlinedVector T) : ℕ :=
  (v.tail 0).toNat + 2 ^ 8 * (v.tail 1).toNat + 2 ^ 16 * (v.tail 2).toNat +
    2 ^ 24 * (v.tail 3).toNat + 2 ^ 32 * (v.tail 4).toNat + 2 ^ 40 * (v.tail 5).toNat +
    2 ^ 48 * (v.tail 6).toNat + 2 ^ 56 * (v.tail 7).toNat

/-- `size` / `size_internal`. -/
def size (v : InlinedVector T) : ℕ :=
  let s := (v.tail 7).toNat
  if s ≠ ElementType.kSentinel then s else v.outoflineWord &&& 0xffffffffffff

/-- `capacity`. -/
def capacity (v : InlinedVector T) : ℕ :=
  if v.isInline then E.kFit else 1 <<< (v.tail 6).toNat

/-- `data`, and what is there. -/
def data (v : InlinedVector T) : Option (Cells T) :=
  if v.isInline then some v.slots else v.pointer.map Block.cells

/-- Writing the bytes from `lo` to `hi` ends the objects in the slots there. -/
def endSlots (lo hi : ℕ) (slots : Cells T) : Cells T :=
  slots.mapIdx fun i c => if i * E.sizeof < hi ∧ lo < (i + 1) * E.sizeof then none else c

/-- `u_.data[kSize - 1] = b`. No slot reaches that byte. -/
def setTag (b : UInt8) (v : InlinedVector T) : InlinedVector T :=
  { v with tail := Function.update v.tail 7 b }

/-- `u_.data[kSize - 2] = b`. -/
def setLg (b : UInt8) (v : InlinedVector T) : InlinedVector T :=
  { v with
    tail := Function.update v.tail 6 b
    slots := endSlots E (E.kSize - 2) (E.kSize - 1) v.slots }

/-- `set_outofline_word`. -/
def setOutoflineWord (w : ℕ) (v : InlinedVector T) : InlinedVector T :=
  { v with
    tail := fun j => UInt8.ofNat (w / 2 ^ (8 * j.val))
    slots := endSlots E (E.kSize - 8) E.kSize v.slots }

/-- `set_outofline_pointer`. -/
def setOutoflinePointer (b : Block T) (v : InlinedVector T) : InlinedVector T :=
  { v with
    pointer := some b
    slots := endSlots E 0 8 v.slots }

/-- `set_size_internal`. -/
def setSize (n : ℕ) (v : InlinedVector T) : InlinedVector T :=
  if v.isInline then v.setTag (UInt8.ofNat n)
  else
    v.setOutoflineWord E
      (n ||| ((v.tail 6).toNat <<< 48) ||| (ElementType.kSentinel <<< 56))

/-- The array at `data()` after writes to it. The bytes of the union that slots cover are theirs. -/
def store (cs : Cells T) (v : InlinedVector T) : InlinedVector T :=
  if v.isInline then
    { slots := cs
      tail := fun j =>
        if E.kSize - 8 + j.val < E.kFit * E.sizeof then E.bytes cs (E.kSize - 8 + j.val)
        else v.tail j
      pointer := none }
  else { v with pointer := v.pointer.map fun b => { b with cells := cs } }

/-- Work on the array at `data()`. -/
def modify (v : InlinedVector T) (f : Cells T → Option (Cells T)) : Option (InlinedVector T) := do
  let cs ← v.data
  let cs ← f cs
  some (v.store E cs)

/-- A reference to element `i`. -/
def elementRef (v : InlinedVector T) (i : ℕ) : Ref T :=
  match v.isInline, v.pointer with
  | false, some b => .inBlock b.id i
  | _, _ => .slot i

/-- The object a reference refers to, now. -/
def deref (v : InlinedVector T) : Ref T → Option T
  | .outside x => some x
  | .slot i => read v.slots i
  | .inBlock id i => v.pointer.bind fun b => if b.id = id then read b.cells i else none

/-! ### Growing -/

/-- `DiscardStorage`. -/
def discardStorage (v : InlinedVector T) : Option (InlinedVector T) := do
  let v ← v.modify E fun cs => E.destroyObjects cs 0 v.size
  some (if v.isInline then v else { v with pointer := none })

/-- One turn of `while (target < kFit || target < n) { target_lg++; target <<= 1; }`. -/
def targetTurn (n : ℕ) (t : ℕ × ℕ) : Except Unit ((ℕ × ℕ) ⊕ (ℕ × ℕ)) :=
  if t.1 < E.kFit ∨ t.1 < n then .ok (.inl (t.1 * 2 % 2 ^ 64, t.2 + 1)) else .ok (.inr t)

/-- `target` and `target_lg`. After 64 turns `target` is 0 and stays so. -/
def growTarget (n : ℕ) : Option (ℕ × ℕ) :=
  (Loops.loop () (targetTurn E n) 65 (1, 0)).toOption

/-- `malloc(target * sizeof(T))`: a block other than the one there is, with as many raw cells. -/
def malloc (v : InlinedVector T) (target : ℕ) : Block T :=
  ⟨match v.pointer with
    | some b => b.id + 1
    | none => 0,
    List.replicate target none⟩

/-- `InitType`: `Uninitialized`, or `Construct` with a copy of what the argument refers to. -/
def initNew (v : InlinedVector T) (dst : Cells T) (s : ℕ) : Option (Ref T) → Option (Cells T)
  | none => some dst
  | some r => do
    let x ← v.deref r
    construct dst s x

/-- `Nop` and `Move`. -/
def applyMover (src dst : Cells T) (n : ℕ) : Mover → Option (Cells T × Cells T)
  | .nop => some (src, dst)
  | .move => moveFrom E.moved src dst 0 n

/-- `Grow`. The new element, if there is one, is constructed before the others are moved. -/
def grow (mover : Mover) (v : InlinedVector T) (n : ℕ) (elem : Option (Ref T)) :
    Option (InlinedVector T) := do
  let s := v.size
  let (target, lg) ← growTarget E n
  let src ← v.data
  let dst := v.malloc target
  let cells ← v.initNew dst.cells s elem
  let (src, cells) ← applyMover E src cells s mover
  let v ← (v.store E src).discardStorage E
  let v := ((v.setTag 255).setLg E (UInt8.ofNat lg)).setSize E s
  some (v.setOutoflinePointer E ⟨dst.id, cells⟩)

/-- `reserve`. -/
def reserve (v : InlinedVector T) (n : ℕ) : Option (InlinedVector T) :=
  if n > v.capacity E then grow E .move v n none else some v

/-! ### The operations -/

/-- `emplace_back` and `EmplaceBackSlow`; `push_back`. -/
def emplaceBack (v : InlinedVector T) (r : Ref T) : Option (InlinedVector T) :=
  let s := v.size
  if s < v.capacity E then do
    let x ← v.deref r
    let v ← v.modify E fun cs => construct cs s x
    some (v.setSize E (s + 1))
  else do
    let v ← grow E .move v (s + 1) (some r)
    some (v.setSize E (s + 1))

/-- `pop_back`. -/
def popBack (v : InlinedVector T) : Option (InlinedVector T) := do
  let s := v.size
  let v ← v.modify E fun cs => E.destroyObjects cs (s - 1) 1
  some (v.setSize E (s - 1))

/-- `Fill`: `*src` is read again for every element. -/
def fill (r : Ref T) (v : InlinedVector T) (k : ℕ) : ℕ → Option (InlinedVector T)
  | 0 => some v
  | n + 1 => do
    let x ← v.deref r
    let v ← v.modify E fun cs => construct cs k x
    fill r v (k + 1) n

/-- `ValueInit`. -/
def valueInit (v : InlinedVector T) (k n : ℕ) : Option (InlinedVector T) :=
  fill E (.outside E.init) v k n

/-- `Resize`. -/
def resizeWith (initializer : InlinedVector T → ℕ → ℕ → Option (InlinedVector T))
    (v : InlinedVector T) (n : ℕ) : Option (InlinedVector T) :=
  let s := v.size
  if n ≤ s then do
    let v ← v.modify E fun cs => E.destroyObjects cs n (s - n)
    some (v.setSize E n)
  else do
    let v ← v.reserve E n
    initializer (v.setSize E n) s (n - s)

/-- `resize(n)`. -/
def resize (v : InlinedVector T) (n : ℕ) : Option (InlinedVector T) :=
  resizeWith E (valueInit E) v n

/-- `resize(n, elem)`. -/
def resizeFill (v : InlinedVector T) (n : ℕ) (r : Ref T) : Option (InlinedVector T) :=
  resizeWith E (fill E r) v n

/-- `insert`, with the place of the new element. -/
def insert (v : InlinedVector T) (pos : ℕ) (r : Ref T) : Option (InlinedVector T × ℕ) :=
  if pos = v.size then do
    let v ← v.emplaceBack E r
    some (v, v.size - 1)
  else do
    let s := v.size
    let v ← (if s = v.capacity E then grow E .move v (s + 1) none else some v)
    if s < v.capacity E then do
      let v ← v.modify E fun cs => do
        let x ← read cs (s - 1)
        construct cs s x
      let v ← v.modify E fun cs => copyBackward cs pos (pos + 1) (s - 1 - pos)
      let x ← v.deref r
      let v ← v.modify E fun cs => assign cs pos x
      some (v.setSize E (s + 1), pos)
    else none

/-- `erase(pos)`. -/
def erase (v : InlinedVector T) (pos : ℕ) : Option (InlinedVector T × ℕ) := do
  let v ← v.modify E fun cs => copy cs (pos + 1) pos (v.size - (pos + 1))
  let v ← v.popBack E
  some (v, pos)

/-- `erase(first, last)`. -/
def eraseRange (v : InlinedVector T) (first last : ℕ) : Option (InlinedVector T × ℕ) := do
  let s := v.size
  let eraseGap := last - first
  let v ← v.modify E fun cs => copy cs last first (s - last)
  let v ← v.modify E fun cs => E.destroyObjects cs (s - eraseGap) eraseGap
  some (v.setSize E (s - eraseGap), first)

/-- `clear`. -/
def clear (v : InlinedVector T) : Option (InlinedVector T) := do
  let v ← v.discardStorage E
  some (v.setTag 0)

/-- `std::copy(first, last, std::back_inserter(*this))`, for `n` objects of another array. -/
def appendFrom (as : Cells T) (v : InlinedVector T) (k : ℕ) : ℕ → Option (InlinedVector T)
  | 0 => some v
  | n + 1 => do
    let x ← read as k
    let v ← v.emplaceBack E (.outside x)
    appendFrom as v (k + 1) n

/-- `operator=`. -/
def assignFrom (v w : InlinedVector T) : Option (InlinedVector T) := do
  let s := v.size
  let vs := w.size
  let as ← w.data
  if s < vs then do
    let v ← v.reserve E vs
    let v ← v.modify E fun cs => (if s = 0 then some cs else copyFrom as cs 0 0 s)
    appendFrom E as v s (vs - s)
  else do
    let (v, _) ← v.eraseRange E vs s
    v.modify E fun cs => copyFrom as cs 0 0 vs

/-- `swap` where one of the two is inline, after `a` has been made the larger. -/
def swapElements (a b : InlinedVector T) : Option (InlinedVector T × InlinedVector T) := do
  let aSize := a.size
  let bSize := b.size
  let b ← (if b.capacity E < aSize then grow E .move b aSize none else some b)
  let as ← a.data
  let bs ← b.data
  let (as, bs) ← swapRanges as bs 0 bSize
  let bs ← uninitializedCopy as bs bSize bSize (aSize - bSize)
  let as ← E.destroyObjects as bSize (aSize - bSize)
  some ((a.store E as).setSize E bSize, (b.store E bs).setSize E aSize)

/-- `swap`. -/
def swap (a b : InlinedVector T) : Option (InlinedVector T × InlinedVector T) :=
  if !a.isInline && !b.isInline then do
    let aptr ← a.pointer
    let bptr ← b.pointer
    let aword := a.outoflineWord
    let bword := b.outoflineWord
    some ((a.setOutoflinePointer E bptr).setOutoflineWord E bword,
      (b.setOutoflinePointer E aptr).setOutoflineWord E aword)
  else if a.size < b.size then do
    let (b, a) ← swapElements E b a
    some (a, b)
  else swapElements E a b

/-! ### The constructors -/

/-- The memory of an object before its constructor runs. -/
def raw (garbage : Fin 8 → UInt8) : InlinedVector T := ⟨List.replicate E.kFit none, garbage, none⟩

/-- `InlinedVector()`: `InitRep`. -/
def new (garbage : Fin 8 → UInt8) : InlinedVector T := (raw E garbage).setTag 0

/-- `InlinedVector(n)` and `InlinedVector(n, elem)`. -/
def newFill (garbage : Fin 8 → UInt8) (n : ℕ) (x : T) : Option (InlinedVector T) := do
  let v := new E garbage
  let v ← (if n > v.capacity E then grow E .nop v n none else some v)
  fill E (.outside x) (v.setSize E n) 0 n

/-- `AppendRange` of a forward range. -/
def appendRange (v : InlinedVector T) (xs : List T) : Option (InlinedVector T) := do
  let s := v.size
  let v ← v.reserve E (s + xs.length)
  let v ← v.modify E fun cs => uninitializedCopy (xs.map some) cs 0 s xs.length
  some (v.setSize E (s + xs.length))

/-- `InlinedVector(range_start, range_end)` of forward iterators, and of an initializer list. -/
def newRange (garbage : Fin 8 → UInt8) (xs : List T) : Option (InlinedVector T) :=
  appendRange E (new E garbage) xs

/-- `InlinedVector(range_start, range_end)` of input iterators. -/
def newInput (garbage : Fin 8 → UInt8) (xs : List T) : Option (InlinedVector T) :=
  appendFrom E (xs.map some) (new E garbage) 0 xs.length

/-- `InlinedVector(const InlinedVector& v)`. -/
def newCopy (garbage : Fin 8 → UInt8) (w : InlinedVector T) : Option (InlinedVector T) :=
  assignFrom E (new E garbage) w

/-! ### The encoding -/

variable {E} {v : InlinedVector T} {n m : ℕ} {cs : Cells T} {xs : List T}

/-- The object has `n` elements and the array `cs` at `data()`: tag and word say so. -/
structure Rep (E : ElementType T) (v : InlinedVector T) (n : ℕ) (cs : Cells T) : Prop where
  data : v.data = some cs
  length : cs.length = v.capacity E
  size : v.size = n
  size_le : n ≤ cs.length
  fit_le : E.kFit ≤ cs.length
  slots_length : v.slots.length = E.kFit
  lg_lt : v.isInline = false → (v.tail 6).toNat < 64

theorem isInline_eq_true : v.isInline = true ↔ v.tail 7 ≠ 255 := by
  simp [isInline]

theorem isInline_eq_false : v.isInline = false ↔ v.tail 7 = 255 := by
  simp [isInline]

theorem size_of_inline (h : v.isInline = true) : v.size = (v.tail 7).toNat := by
  rw [isInline_eq_true] at h
  have hne : (v.tail 7).toNat ≠ ElementType.kSentinel := by
    intro heq
    exact h (UInt8.toNat_inj.mp heq)
  rw [size]
  exact if_pos hne

theorem size_of_outline (h : v.isInline = false) : v.size = v.outoflineWord % 2 ^ 48 := by
  rw [isInline_eq_false] at h
  have heq : (v.tail 7).toNat = ElementType.kSentinel := by
    rw [h]
    rfl
  rw [size, if_neg (not_not.mpr heq), show (0xffffffffffff : ℕ) = 2 ^ 48 - 1 from rfl,
    Nat.and_two_pow_sub_one_eq_mod]

theorem capacity_of_inline (h : v.isInline = true) : v.capacity E = E.kFit := if_pos h

theorem capacity_of_outline (h : v.isInline = false) : v.capacity E = 2 ^ (v.tail 6).toNat := by
  rw [capacity, h, Nat.one_shiftLeft]
  rfl

theorem data_of_inline (h : v.isInline = true) : v.data = some v.slots := if_pos h

theorem data_of_outline (h : v.isInline = false) : v.data = v.pointer.map Block.cells := by
  rw [data, h]
  rfl

@[simp] theorem length_endSlots (lo hi : ℕ) (slots : Cells T) :
    (endSlots E lo hi slots).length = slots.length :=
  List.length_mapIdx

/-- What a reference to an element refers to. -/
theorem deref_elementRef (h : v.data = some cs) (i : ℕ) : v.deref (v.elementRef i) = read cs i := by
  unfold elementRef
  cases hin : v.isInline with
  | true =>
    rw [data_of_inline hin, Option.some.injEq] at h
    rw [← h]
    rfl
  | false =>
    rw [data_of_outline hin, Option.map_eq_some_iff] at h
    obtain ⟨b, hb, rfl⟩ := h
    simp [hb, deref]

/-! ### Writing through `data()` -/

/-- The array stays where it is; where it is a block, the slots keep what is left in them. -/
structure SamePlace (v v' : InlinedVector T) : Prop where
  isInline : v'.isInline = v.isInline
  elementRef : ∀ i, v'.elementRef i = v.elementRef i
  slots : v.isInline = false → v'.slots = v.slots

theorem SamePlace.refl (v : InlinedVector T) : SamePlace v v := ⟨rfl, fun _ => rfl, fun _ => rfl⟩

theorem SamePlace.trans {v₁ v₂ : InlinedVector T} (h : SamePlace v v₁) (h' : SamePlace v₁ v₂) :
    SamePlace v v₂ := by
  refine ⟨h'.isInline.trans h.isInline, fun i => (h'.elementRef i).trans (h.elementRef i), ?_⟩
  intro hout
  rw [h'.slots (h.isInline.trans hout), h.slots hout]

/-- **Elements never overwrite the encoding**: a store leaves size, capacity and place as they are. -/
theorem store_rep (h : Rep E v n cs) {cs' : Cells T} (hlen : cs'.length = cs.length) :
    Rep E (v.store E cs') n cs' ∧ SamePlace v (v.store E cs') := by
  have hlength := h.length
  cases hin : v.isInline with
  | true =>
    have htag : (v.store E cs').tail 7 = v.tail 7 := by
      have hbound := E.kFit_mul_sizeof_le
      have hsize := E.sixteen_le_kSize
      have hfree : ¬ E.kSize - 8 + 7 < E.kFit * E.sizeof := by omega
      rw [store, if_pos hin]
      exact if_neg hfree
    have hin' : (v.store E cs').isInline = true := by rw [isInline, htag]; exact hin
    have hslots : (v.store E cs').slots = cs' := by rw [store, if_pos hin]
    have hcap := capacity_of_inline (E := E) hin
    refine ⟨⟨?_, ?_, ?_, ?_, ?_, ?_, ?_⟩, ?_⟩
    · rw [data_of_inline hin', hslots]
    · rw [capacity_of_inline hin']
      omega
    · rw [size_of_inline hin', htag, ← size_of_inline hin, h.size]
    · rw [hlen]
      exact h.size_le
    · rw [hlen]
      exact h.fit_le
    · rw [hslots]
      omega
    · intro hout
      rw [hin'] at hout
      contradiction
    · refine ⟨hin'.trans hin.symm, fun i => by simp [elementRef, hin, hin'], ?_⟩
      intro hout
      rw [hin] at hout
      contradiction
  | false =>
    have hdata := h.data
    rw [data_of_outline hin, Option.map_eq_some_iff] at hdata
    obtain ⟨b, hb, -⟩ := hdata
    have hstore : v.store E cs' = { v with pointer := some { b with cells := cs' } } := by
      rw [store, hin, hb]
      rfl
    have hin' : isInline { v with pointer := some { b with cells := cs' } } = false := hin
    rw [hstore]
    refine ⟨⟨?_, ?_, ?_, ?_, ?_, h.slots_length, h.lg_lt⟩, ?_⟩
    · rw [data_of_outline hin']
      rfl
    · rw [hlen]
      exact h.length
    · exact h.size
    · rw [hlen]
      exact h.size_le
    · rw [hlen]
      exact h.fit_le
    · refine ⟨hin'.trans hin.symm, fun i => ?_, fun _ => rfl⟩
      unfold elementRef
      rw [hin', hin, hb]

theorem modify_rep (h : Rep E v n cs) {f : Cells T → Option (Cells T)} {cs' : Cells T}
    (hf : f cs = some cs') (hlen : cs'.length = cs.length) :
    ∃ v', v.modify E f = some v' ∧ Rep E v' n cs' ∧ SamePlace v v' := by
  refine ⟨v.store E cs', ?_, store_rep h hlen⟩
  rw [modify, h.data, some_bind, hf, some_bind]

/-! ### The size -/

/-- The packed word. -/
theorem packedWord_eq {lg : ℕ} (hn : n < 2 ^ 48) (hlg : lg < 2 ^ 8) :
    n ||| (lg <<< 48) ||| (ElementType.kSentinel <<< 56) = n + 2 ^ 48 * lg + 2 ^ 56 * 255 := by
  have hlow : n ||| (lg <<< 48) = lg <<< 48 + n := by
    rw [Nat.or_comm, Nat.shiftLeft_add_eq_or_of_lt hn]
  have hlt : lg <<< 48 + n < 2 ^ 56 := by
    rw [Nat.shiftLeft_eq]
    omega
  rw [hlow, Nat.or_comm, ← Nat.shiftLeft_add_eq_or_of_lt hlt, Nat.shiftLeft_eq, Nat.shiftLeft_eq,
    ElementType.kSentinel]
  omega

/-- The bytes of a word. -/
theorem outoflineWord_setOutoflineWord {w : ℕ} (hw : w < 2 ^ 64) :
    (v.setOutoflineWord E w).outoflineWord = w := by
  have hbyte : ∀ j : Fin 8, ((v.setOutoflineWord E w).tail j).toNat = w / 2 ^ (8 * j.val) % 256 :=
    fun j => UInt8.toNat_ofNat'
  rw [outoflineWord, hbyte, hbyte, hbyte, hbyte, hbyte, hbyte, hbyte, hbyte]
  show w / 2 ^ 0 % 256 + 2 ^ 8 * (w / 2 ^ 8 % 256) + 2 ^ 16 * (w / 2 ^ 16 % 256) +
    2 ^ 24 * (w / 2 ^ 24 % 256) + 2 ^ 32 * (w / 2 ^ 32 % 256) + 2 ^ 40 * (w / 2 ^ 40 % 256) +
    2 ^ 48 * (w / 2 ^ 48 % 256) + 2 ^ 56 * (w / 2 ^ 56 % 256) = w
  omega

/-- A new size out of line: tag and log-capacity are written back as they were. -/
theorem setSize_outline (E : ElementType T) (h : v.isInline = false) (hm : m < 2 ^ 48) :
    (v.setSize E m).isInline = false ∧ (v.setSize E m).tail 6 = v.tail 6 ∧
      (v.setSize E m).size = m ∧ (v.setSize E m).pointer = v.pointer := by
  have hlg := (v.tail 6).toNat_lt
  have hset : v.setSize E m =
      v.setOutoflineWord E (m + 2 ^ 48 * (v.tail 6).toNat + 2 ^ 56 * 255) := by
    rw [setSize, h, packedWord_eq hm hlg]
    rfl
  have hin : (v.setSize E m).isInline = false := by
    rw [isInline_eq_false, hset, ← UInt8.toNat_inj]
    show (UInt8.ofNat ((m + 2 ^ 48 * (v.tail 6).toNat + 2 ^ 56 * 255) / 2 ^ 56)).toNat = 255
    rw [UInt8.toNat_ofNat']
    omega
  refine ⟨hin, ?_, ?_, ?_⟩
  · rw [hset, ← UInt8.toNat_inj]
    show (UInt8.ofNat ((m + 2 ^ 48 * (v.tail 6).toNat + 2 ^ 56 * 255) / 2 ^ 48)).toNat = _
    rw [UInt8.toNat_ofNat']
    omega
  · rw [size_of_outline hin, hset, outoflineWord_setOutoflineWord (by omega)]
    omega
  · rw [hset]
    rfl

theorem slots_setSize (E : ElementType T) (h : v.isInline = false) (n : ℕ) :
    (v.setSize E n).slots = endSlots E (E.kSize - 8) E.kSize v.slots := by
  rw [setSize, h]
  rfl

/-- **A new size**: the encoding says it, and nothing moves. -/
theorem setSize_rep (h : Rep E v n cs) (hm : m ≤ cs.length) (hbig : m < 2 ^ 48) :
    Rep E (v.setSize E m) m cs ∧ ∀ i, (v.setSize E m).elementRef i = v.elementRef i := by
  cases hin : v.isInline with
  | true =>
    have hcap := h.length
    rw [capacity_of_inline hin] at hcap
    have hfit := E.kFit_lt
    have htag : ((v.setSize E m).tail 7).toNat = m := by
      rw [setSize, if_pos hin, setTag]
      show (Function.update v.tail 7 (UInt8.ofNat m) 7).toNat = m
      rw [Function.update_self, UInt8.toNat_ofNat']
      omega
    have hin' : (v.setSize E m).isInline = true := by
      rw [isInline_eq_true]
      intro heq
      rw [heq] at htag
      have h255 : (255 : UInt8).toNat = 255 := rfl
      omega
    have hslots : (v.setSize E m).slots = v.slots := by
      rw [setSize, if_pos hin]
      rfl
    refine ⟨⟨?_, ?_, ?_, hm, h.fit_le, ?_, ?_⟩, ?_⟩
    · rw [data_of_inline hin', hslots, ← data_of_inline hin, h.data]
    · rw [capacity_of_inline hin', hcap]
    · rw [size_of_inline hin', htag]
    · rw [hslots, h.slots_length]
    · intro hout
      rw [hin'] at hout
      contradiction
    · intro i
      simp [elementRef, hin, hin']
  | false =>
    obtain ⟨hin', hlg, hsize, hpointer⟩ := setSize_outline E hin hbig
    refine ⟨⟨?_, ?_, hsize, hm, h.fit_le, ?_, ?_⟩, ?_⟩
    · rw [data_of_outline hin', hpointer, ← data_of_outline hin, h.data]
    · rw [capacity_of_outline hin', hlg, ← capacity_of_outline (E := E) hin, h.length]
    · rw [slots_setSize E hin, length_endSlots]
      exact h.slots_length
    · intro _
      rw [hlg]
      exact h.lg_lt hin
    · intro i
      unfold elementRef
      rw [hin, hin', hpointer]

/-! ### Growing -/

/-- **The doubling loop** ends with a power of two that is large enough. -/
theorem growTarget_eq (E : ElementType T) (hn : n ≤ 2 ^ 63) :
    ∃ lg, lg < 64 ∧ growTarget E n = some (2 ^ lg, lg) ∧ E.kFit ≤ 2 ^ lg ∧ n ≤ 2 ^ lg := by
  have hfit := E.kFit_lt
  have hturn : ∀ t : ℕ × ℕ, (∃ lg, t = (2 ^ lg, lg) ∧ lg < 64) →
      (∃ t', targetTurn E n t = .ok (.inl t') ∧ (∃ lg, t' = (2 ^ lg, lg) ∧ lg < 64) ∧
        64 - t'.2 < 64 - t.2) ∨
      ∃ o, targetTurn E n t = .ok (.inr o) ∧
        ∃ lg, o = (2 ^ lg, lg) ∧ lg < 64 ∧ E.kFit ≤ 2 ^ lg ∧ n ≤ 2 ^ lg := by
    rintro t ⟨lg, rfl, hlg⟩
    by_cases hsmall : 2 ^ lg < E.kFit ∨ 2 ^ lg < n
    · left
      have hlg' : lg < 63 := by
        by_contra hge
        obtain rfl : lg = 63 := by omega
        omega
      have hpow : 2 ^ lg * 2 % 2 ^ 64 = 2 ^ (lg + 1) := by
        rw [← Nat.pow_succ]
        exact Nat.mod_eq_of_lt (Nat.pow_lt_pow_right (by omega) (by omega))
      refine ⟨(2 ^ (lg + 1), lg + 1), ?_, ⟨lg + 1, rfl, by omega⟩, by dsimp only; omega⟩
      rw [targetTurn, if_pos hsmall, hpow]
    · right
      exact ⟨_, if_neg hsmall, lg, rfl, hlg, by omega, by omega⟩
  obtain ⟨t, hloop, lg, rfl, hlg, hfit', hn'⟩ := Loops.loop_total _ _ (fun t => 64 - t.2) hturn
    (s := (1, 0)) (n := 65) ⟨0, rfl, by omega⟩ (by dsimp only; omega)
  exact ⟨lg, hlg, by rw [growTarget, hloop]; rfl, hfit', hn'⟩

theorem bmod_toNat_le (n : ℕ) : (Int.bmod n (2 ^ 32)).toNat ≤ n := by
  rw [Int.bmod_def]
  split <;> omega

/-- Destroying objects, all of them or (for a count that is no `int`) some. -/
theorem destroyObjects_holds (E : ElementType T) {k : ℕ} (hc : Holds cs xs)
    (hk : k + n ≤ xs.length) :
    ∃ cs', E.destroyObjects cs k n = some cs' ∧ cs'.length = cs.length ∧ Holds cs' (xs.take k) := by
  unfold ElementType.destroyObjects
  by_cases htriv : E.triviallyDestructible = true
  · rw [if_pos htriv]
    exact ⟨cs, rfl, rfl, hc.mono (List.take_prefix k xs)⟩
  · rw [if_neg htriv]
    have hle := bmod_toNat_le n
    exact hc.destroy (by omega)

/-- The storage is given up; the union has its slots, and the encoding is still the old one. -/
theorem discardStorage_eq (h : Rep E v xs.length cs) (hc : Holds cs xs) :
    ∃ v', v.discardStorage E = some v' ∧ v'.slots.length = E.kFit := by
  obtain ⟨cs', hd, hlen, -⟩ := destroyObjects_holds E (k := 0) (n := xs.length) hc (by omega)
  obtain ⟨v', hmod, hv', -⟩ := modify_rep (f := fun cs => E.destroyObjects cs 0 v.size) h
    (by rw [h.size]; exact hd) hlen
  refine ⟨_, by rw [discardStorage, hmod, some_bind], ?_⟩
  split
  · exact hv'.slots_length
  · exact hv'.slots_length

/-- The sentinel and the log-capacity `Grow` writes. -/
theorem tail_setTag_setLg (E : ElementType T) (v : InlinedVector T) (lg : UInt8) :
    ((v.setTag 255).setLg E lg).isInline = false ∧ ((v.setTag 255).setLg E lg).tail 6 = lg := by
  constructor
  · rw [isInline_eq_false]
    show Function.update (Function.update v.tail 7 255) 6 lg 7 = 255
    rw [Function.update_of_ne (by decide), Function.update_self]
  · show Function.update (Function.update v.tail 7 255) 6 lg 6 = lg
    rw [Function.update_self]

/-- The encoding `Grow` writes. -/
theorem outline_rep (hslots : v.slots.length = E.kFit) {b : Block T} {lg s : ℕ} (hlg : lg < 64)
    (hlen : b.cells.length = 2 ^ lg) (hfit : E.kFit ≤ 2 ^ lg) (hs : s ≤ 2 ^ lg)
    (hbig : s < 2 ^ 48) :
    let v' := (((v.setTag 255).setLg E (UInt8.ofNat lg)).setSize E s).setOutoflinePointer E b
    Rep E v' s b.cells ∧ v'.isInline = false := by
  intro v'
  have hlgNat : (UInt8.ofNat lg).toNat = lg := by
    rw [UInt8.toNat_ofNat']
    omega
  obtain ⟨hout, hlg6⟩ := tail_setTag_setLg E v (UInt8.ofNat lg)
  obtain ⟨hin, hkept, hsize, -⟩ := setSize_outline E hout hbig
  have hin' : v'.isInline = false := hin
  have hlgv : v'.tail 6 = UInt8.ofNat lg := hkept.trans hlg6
  refine ⟨⟨?_, ?_, hsize, ?_, ?_, ?_, ?_⟩, hin'⟩
  · rw [data_of_outline hin']
    rfl
  · rw [capacity_of_outline hin', hlgv, hlgNat, hlen]
  · omega
  · omega
  · have hsame := slots_setSize E hout s
    show (endSlots E 0 8 (setSize E s _).slots).length = _
    rw [hsame, length_endSlots, length_endSlots]
    exact (length_endSlots _ _ _).trans hslots
  · intro _
    rw [hlgv, hlgNat]
    exact hlg

/-- The new block: the element constructed first, then the others before it. -/
theorem holds_newBlock {cells cells' : Cells T} {added : List T}
    (hadded : ∀ (j : ℕ) (x : T), added[j]? = some x → cells[xs.length + j]? = some (some x))
    (hcells : cells' = overwrite cells 0 (xs.map some)) : Holds cells' (xs ++ added) := by
  subst hcells
  rw [holds_iff]
  intro j x hx
  rw [getElem?_overwrite (Nat.zero_le _), if_neg (Nat.not_lt_zero j), List.length_map, Nat.zero_add,
    Nat.sub_zero]
  by_cases hj : j < xs.length
  · rw [List.getElem?_append_left hj] at hx
    rw [if_pos hj, List.getElem?_map, hx, Option.map_some]
  · rw [List.getElem?_append_right (by omega)] at hx
    have hcell := hadded (j - xs.length) x hx
    rw [show xs.length + (j - xs.length) = j from by omega] at hcell
    rw [if_neg hj, hcell]

/-- What `Grow` is given to add: nothing, or what a reference refers to. -/
inductive Adds (v : InlinedVector T) : Option (Ref T) → List T → Prop
  | nothing : Adds v none []
  | one {r : Ref T} {x : T} : v.deref r = some x → Adds v (some r) [x]

theorem initNew_eq {elem : Option (Ref T)} {added : List T} (hadds : Adds v elem added) {s : ℕ}
    (hs : s + added.length ≤ m) :
    ∃ cells, v.initNew (List.replicate m none) s elem = some cells ∧ cells.length = m ∧
      ∀ (j : ℕ) (x : T), added[j]? = some x → cells[s + j]? = some (some x) := by
  cases hadds with
  | nothing => exact ⟨_, rfl, List.length_replicate, by simp⟩
  | @one r x hx =>
    rw [List.length_singleton] at hs
    have hput : construct (List.replicate m none) s x =
        some ((List.replicate m none).set s (some x)) :=
      if_pos (by rw [List.length_replicate]; omega)
    refine ⟨(List.replicate m none).set s (some x), ?_, ?_, ?_⟩
    · rw [initNew, hx, some_bind, hput]
    · rw [List.length_set, List.length_replicate]
    · intro j y hy
      cases j with
      | zero =>
        simp only [List.getElem?_cons_zero, Option.some.injEq] at hy
        rw [Nat.add_zero, List.getElem?_set_self (by rw [List.length_replicate]; omega), hy]
      | succ j => simp at hy

/-- The elements go over to the new block, and what a move leaves behind of each stays. -/
theorem applyMover_eq (E : ElementType T) (hc : Holds cs xs) {mover : Mover}
    (hmover : mover = .move ∨ xs = []) {cells : Cells T} (hlen : xs.length ≤ cells.length) :
    ∃ src, applyMover E cs cells xs.length mover = some (src, overwrite cells 0 (xs.map some)) ∧
      src.length = cs.length ∧ Holds src (xs.map E.moved) := by
  have hcs := hc.length_le
  rcases hmover with rfl | rfl
  · have hmoved := hc.moveFrom E.moved (n := xs.length) (i := 0) (by omega)
      (show 0 + xs.length ≤ cells.length by omega)
    rw [List.drop_zero, List.take_length] at hmoved
    refine ⟨_, hmoved, ?_, ?_⟩
    · rw [length_overwrite (Nat.zero_le _), List.length_map]
      omega
    · have hover := hc.overwritten (Nat.zero_le _) (xs.map E.moved)
      rw [List.map_map] at hover
      refine hover.mono ?_
      rw [overwrite, List.take_zero, List.nil_append]
      exact List.prefix_append _ _
  · refine ⟨cs, ?_, rfl, .nil cs⟩
    rw [List.map_nil, overwrite_nil]
    cases mover with
    | nop => rfl
    | move => rfl

/-- **`Grow`, step by step**: the elements and the new one are in a block large enough, what was left of
the old array is given up, and the union says where the block is. -/
theorem grow_eq (h : Rep E v xs.length cs) (hc : Holds cs xs) (hn : n ≤ 2 ^ 63) {mover : Mover}
    (hmover : mover = .move ∨ xs = []) {elem : Option (Ref T)} {added : List T}
    (hadds : Adds v elem added) (hroom : xs.length + added.length ≤ n) :
    ∃ lg src cells v₂, lg < 64 ∧ E.kFit ≤ 2 ^ lg ∧ n ≤ 2 ^ lg ∧ src.length = cs.length ∧
      Holds src (xs.map E.moved) ∧ cells.length = 2 ^ lg ∧ Holds cells (xs ++ added) ∧
      (v.store E src).discardStorage E = some v₂ ∧ v₂.slots.length = E.kFit ∧
      grow E mover v n elem = some ((((v₂.setTag 255).setLg E (UInt8.ofNat lg)).setSize E
        xs.length).setOutoflinePointer E ⟨(v.malloc (2 ^ lg)).id, cells⟩) := by
  obtain ⟨lg, hlg, htarget, hfit, htargetle⟩ := growTarget_eq E hn
  obtain ⟨cells, hcells, hlen, hadded⟩ :=
    initNew_eq hadds (show xs.length + added.length ≤ 2 ^ lg by omega)
  obtain ⟨src, hmove, hsrc, hsrcHolds⟩ :=
    applyMover_eq E hc hmover (show xs.length ≤ cells.length by omega)
  have hstored := (store_rep h hsrc).1
  rw [← List.length_map E.moved] at hstored
  obtain ⟨v₂, hdiscard, hslots⟩ := discardStorage_eq hstored hsrcHolds
  have hblock : (overwrite cells 0 (xs.map some)).length = 2 ^ lg := by
    rw [length_overwrite (Nat.zero_le _), List.length_map]
    omega
  refine ⟨lg, src, _, v₂, hlg, hfit, htargetle, hsrc, hsrcHolds, hblock, holds_newBlock hadded rfl,
    hdiscard, hslots, ?_⟩
  rw [grow, htarget, some_bind]
  dsimp only
  rw [h.data, some_bind, h.size, show (v.malloc (2 ^ lg)).cells = List.replicate (2 ^ lg) none from rfl,
    hcells, some_bind, hmove, some_bind]
  dsimp only
  rw [hdiscard, some_bind]

/-- **`Grow`**: room for `n` elements in a new block, the old elements moved there, and the new one, if
there is one, behind them. -/
theorem grow_rep (h : Rep E v xs.length cs) (hc : Holds cs xs) (hbig : xs.length < 2 ^ 48)
    (hn : n ≤ 2 ^ 63) {mover : Mover} (hmover : mover = .move ∨ xs = []) {elem : Option (Ref T)}
    {added : List T} (hadds : Adds v elem added) (hroom : xs.length + added.length ≤ n) :
    ∃ v' cs', grow E mover v n elem = some v' ∧ Rep E v' xs.length cs' ∧ Holds cs' (xs ++ added) ∧
      n ≤ cs'.length := by
  obtain ⟨lg, src, cells, v₂, hlg, hfit, htarget, -, -, hblock, hcells, -, hslots, hgrow⟩ :=
    grow_eq h hc hn hmover hadds hroom
  obtain ⟨hrep, -⟩ := outline_rep (b := ⟨(v.malloc (2 ^ lg)).id, cells⟩) (s := xs.length) hslots hlg
    hblock hfit (by omega) hbig
  exact ⟨_, cells, hgrow, hrep, hcells, by omega⟩

end InlinedVector
end LearnNetlib.Gtl
