import Mathlib.Algebra.Group.Int.Defs
import Mathlib.Algebra.GroupWithZero.Nat
import Mathlib.Order.Lattice
import Mathlib.Data.List.Lex
import Mathlib.Tactic.Common

/-!
# Byte strings and checked memory access

* `Bytes` — the contents of a `string` or of the region a `StringPiece` points at;
* `StringPiece.compare` — with `compare_lt_zero_iff` / `compare_eq_zero_iff`, which identify it with
  the **lexicographic order** on byte strings;
* `Bytes.HasAt` — what a buffer holds at an offset;
* `Access` — computations that read memory: a read outside the object, a failing assertion, or a
  loop that outlives the steps it was given, has no result (`Stop`), so that memory safety is a
  statement about the modelled code and not an assumption of the model;
* `Access.Ensures` — the outcomes memory safety allows.
-/

namespace LearnNetlib

/-- A byte string. -/
abbrev Bytes := List UInt8

/-- What holds of the 256 numbers holds of every byte. -/
theorem forall_byte {P : UInt8 → Prop} (h : ∀ n < 256, P (UInt8.ofNat n)) (b : UInt8) : P b := by
  have hb := h b.toNat b.toNat_lt
  rwa [UInt8.ofNat_toNat] at hb

/-! ### The order of bytes and of byte strings -/

instance byteLinearOrder : LinearOrder UInt8 where
  le_refl a := UInt8.le_refl a
  le_trans _ _ _ := UInt8.le_trans
  le_antisymm _ _ := UInt8.le_antisymm
  le_total a b := UInt8.le_total a b
  lt_iff_le_not_ge a b := by
    rw [UInt8.lt_iff_toNat_lt, UInt8.le_iff_toNat_le, UInt8.le_iff_toNat_le]
    omega
  toDecidableLE := inferInstance
  toDecidableEq := inferInstance
  toDecidableLT := inferInstance

namespace StringPiece

/-- C `memcmp`: the first differing byte among the first `n` decides, as `unsigned char`. -/
def memcmp : Bytes → Bytes → ℕ → ℤ
  | a :: as, b :: bs, n + 1 => if a = b then memcmp as bs n else (a.toNat : ℤ) - b.toNat
  | _, _, _ => 0

/-- `StringPiece::compare`. -/
def compare (a b : Bytes) : ℤ :=
  let minLen := if a.length < b.length then a.length else b.length
  let r := memcmp a b minLen
  if r = 0 then
    if a.length < b.length then -1
    else if a.length > b.length then 1
    else r
  else r

@[simp] theorem compare_nil_nil : compare [] [] = 0 := rfl

@[simp] theorem compare_nil_cons (b : UInt8) (bs : Bytes) : compare [] (b :: bs) = -1 := by
  simp [compare, memcmp]

@[simp] theorem compare_cons_nil (a : UInt8) (as : Bytes) : compare (a :: as) [] = 1 := by
  simp [compare, memcmp]

/-- Equal heads cancel. -/
theorem compare_cons_self (a : UInt8) (as bs : Bytes) :
    compare (a :: as) (a :: bs) = compare as bs := by
  by_cases h : as.length < bs.length
  · simp [compare, memcmp, h]
  · simp [compare, memcmp, h]

/-- Different heads decide. -/
theorem compare_cons_ne {a b : UInt8} (as bs : Bytes) (h : a ≠ b) :
    compare (a :: as) (b :: bs) = (a.toNat : ℤ) - b.toNat := by
  have hne : (a.toNat : ℤ) - b.toNat ≠ 0 := by
    intro h0
    exact h (UInt8.toNat_inj.mp (by omega))
  by_cases hlen : as.length < bs.length
  · simp [compare, memcmp, hlen, h, hne]
  · simp [compare, memcmp, hlen, h, hne]

/-- **`StringPiece::compare` is the lexicographic order.** -/
theorem compare_lt_zero_iff (a b : Bytes) : compare a b < 0 ↔ a < b := by
  induction a generalizing b with
  | nil =>
    cases b with
    | nil => simp
    | cons b bs => simp
  | cons a as ih =>
    cases b with
    | nil => simp
    | cons b bs =>
      rcases eq_or_ne a b with rfl | hab
      · rw [compare_cons_self, ih, List.cons_lt_cons_iff]
        simp
      · rw [compare_cons_ne as bs hab, List.cons_lt_cons_iff, UInt8.lt_iff_toNat_lt]
        simp only [hab, false_and, or_false]
        omega

theorem compare_eq_zero_iff (a b : Bytes) : compare a b = 0 ↔ a = b := by
  induction a generalizing b with
  | nil =>
    cases b with
    | nil => simp
    | cons b bs => simp
  | cons a as ih =>
    cases b with
    | nil => simp
    | cons b bs =>
      rcases eq_or_ne a b with rfl | hab
      · rw [compare_cons_self, ih]
        simp
      · have hne : a.toNat ≠ b.toNat := fun h => hab (UInt8.toNat_inj.mp h)
        rw [compare_cons_ne as bs hab]
        simp only [List.cons.injEq, hab, false_and, iff_false]
        omega

theorem compare_nonneg_iff (a b : Bytes) : 0 ≤ compare a b ↔ b ≤ a := by
  rw [← not_lt, compare_lt_zero_iff, not_lt]

theorem compare_pos_iff (a b : Bytes) : 0 < compare a b ↔ b < a := by
  have hlt := compare_lt_zero_iff a b
  have heq := compare_eq_zero_iff a b
  constructor
  · intro h
    rcases lt_trichotomy a b with hab | hab | hab
    · have := hlt.mpr hab
      omega
    · have := heq.mpr hab
      omega
    · exact hab
  · intro h
    have h1 : ¬ compare a b < 0 := fun hc => lt_asymm h (hlt.mp hc)
    have h2 : compare a b ≠ 0 := fun hc => h.ne' (heq.mp hc)
    omega

end StringPiece

/-! ### Checked access to memory -/

/-- Why a modelled computation has no result. -/
inductive Stop
  /-- A byte outside the object was touched. -/
  | outOfBounds
  /-- An `assert` failed. -/
  | assertFailed
  /-- A loop has not finished within the steps it was given. -/
  | stillRunning
  deriving Repr, DecidableEq

/-- A computation that reads memory. -/
abbrev Access (α : Type) := Except Stop α

/-- Read the byte at `data + i`. -/
def readByte (data : Bytes) (i : ℕ) : Access UInt8 :=
  match data[i]? with
  | some b => .ok b
  | none => .error .outOfBounds

/-- The `n` bytes at `data + i`. -/
def readBytes (data : Bytes) (i n : ℕ) : Access Bytes :=
  if i + n ≤ data.length then .ok ((data.drop i).take n) else .error .outOfBounds

/-- `*(buffer + p) = v`. -/
def writeByte (buffer : Bytes) (p : ℕ) (v : UInt8) : Access Bytes :=
  if p < buffer.length then .ok (buffer.set p v) else .error .outOfBounds

theorem readByte_of_lt {data : Bytes} {i : ℕ} (h : i < data.length) :
    readByte data i = .ok data[i] := by
  simp [readByte, h]

theorem readByte_of_ge {data : Bytes} {i : ℕ} (h : data.length ≤ i) :
    readByte data i = .error .outOfBounds := by
  simp [readByte, h]

theorem readBytes_of_le {data : Bytes} {i n : ℕ} (h : i + n ≤ data.length) :
    readBytes data i n = .ok ((data.drop i).take n) := by
  simp [readBytes, h]

theorem writeByte_of_lt {buffer : Bytes} {p : ℕ} (h : p < buffer.length) (v : UInt8) :
    writeByte buffer p v = .ok (buffer.set p v) := if_pos h

/-- `data` holds the bytes `bs` at offset `p`. -/
def Bytes.HasAt (data : Bytes) (p : ℕ) (bs : Bytes) : Prop := bs <+: data.drop p

namespace Bytes.HasAt

variable {data : Bytes} {p : ℕ}

theorem nil : HasAt data p [] := List.nil_prefix

theorem self (data : Bytes) : HasAt data 0 data := List.prefix_rfl

/-- What stands behind a prefix stands at the prefix's length. -/
theorem behind (pre bs post : Bytes) : HasAt (pre ++ (bs ++ post)) pre.length bs :=
  ⟨post, (List.drop_left).symm⟩

/-- Appending to the buffer moves nothing. -/
theorem append_right {bs : Bytes} (h : HasAt data p bs) (more : Bytes) :
    HasAt (data ++ more) p bs := by
  rw [HasAt, List.drop_append]
  exact h.trans (List.prefix_append _ _)

theorem append_iff {as bs : Bytes} :
    HasAt data p (as ++ bs) ↔ HasAt data p as ∧ HasAt data (p + as.length) bs := by
  unfold HasAt
  rw [← List.drop_drop]
  constructor
  · rintro ⟨t, ht⟩
    rw [← ht]
    exact ⟨⟨bs ++ t, by simp⟩, ⟨t, by simp⟩⟩
  · rintro ⟨⟨t, ht⟩, ⟨u, hu⟩⟩
    refine ⟨u, ?_⟩
    rw [← ht, List.drop_left] at hu
    rw [List.append_assoc, hu, ht]

theorem length_le {bs : Bytes} (h : HasAt data p bs) (hbs : bs ≠ []) :
    p + bs.length ≤ data.length := by
  have hlen := List.IsPrefix.length_le h
  have hpos := List.length_pos_iff.mpr hbs
  rw [List.length_drop] at hlen
  omega

theorem readByte {b : UInt8} {bs : Bytes} (h : HasAt data p (b :: bs)) :
    readByte data p = .ok b := by
  have hlen := h.length_le (by simp)
  rw [List.length_cons] at hlen
  have hp : p < data.length := by omega
  have hget : (b :: bs)[0]? = (data.drop p)[0]? := by
    obtain ⟨t, ht⟩ := h
    rw [← ht]
    rfl
  rw [readByte_of_lt hp]
  simpa [hp] using hget.symm

theorem tail {b : UInt8} {bs : Bytes} (h : HasAt data p (b :: bs)) : HasAt data (p + 1) bs :=
  (append_iff.mp (show HasAt data p ([b] ++ bs) from h)).2

theorem cons {b : UInt8} {bs : Bytes} (hread : LearnNetlib.readByte data p = .ok b)
    (h : HasAt data (p + 1) bs) : HasAt data p (b :: bs) := by
  rcases Nat.lt_or_ge p data.length with hp | hp
  · rw [readByte_of_lt hp, Except.ok.injEq] at hread
    subst hread
    rw [HasAt, List.drop_eq_getElem_cons hp]
    exact (List.prefix_cons_inj _).mpr h
  · rw [readByte_of_ge hp] at hread
    exact absurd hread (by simp)

theorem readBytes {bs : Bytes} (h : HasAt data p bs) (hp : p ≤ data.length) :
    readBytes data p bs.length = .ok bs := by
  have hlen := List.IsPrefix.length_le h
  rw [List.length_drop] at hlen
  rw [readBytes_of_le (by omega)]
  exact congrArg _ (List.prefix_iff_eq_take.mp h).symm

end Bytes.HasAt

@[simp] theorem Access.ok_bind {α β : Type} (a : α) (f : α → Access β) :
    (Except.ok a >>= f) = f a := rfl

@[simp] theorem Access.error_bind {α β : Type} (s : Stop) (f : α → Access β) :
    ((Except.error s : Access α) >>= f) = .error s := rfl

@[simp] theorem Access.pure_eq {α : Type} (a : α) : (pure a : Access α) = .ok a := rfl

/-- **Peeling a computation apart**: a sequence has a result exactly when both parts do. -/
theorem Access.bind_eq_ok {α β : Type} {x : Access α} {f : α → Access β} {b : β} :
    (x >>= f) = .ok b ↔ ∃ a, x = .ok a ∧ f a = .ok b := by
  cases x with
  | error s => simp
  | ok a => simp

/-- The outcomes memory safety allows: a result with the property `P`, or a loop that is still
running. -/
def Access.Ensures {α : Type} (x : Access α) (P : α → Prop) : Prop :=
  match x with
  | .ok a => P a
  | .error s => s = .stillRunning

namespace Access.Ensures

variable {α β : Type} {x : Access α} {f : α → Access β} {P Q : α → Prop} {R : β → Prop}

theorem of_ok {a : α} (h : x = .ok a) (hP : P a) : x.Ensures P := by
  rw [h]
  exact hP

theorem bind (hx : x.Ensures P) (hf : ∀ a, P a → (f a).Ensures R) : (x >>= f).Ensures R := by
  cases x with
  | error s => exact hx
  | ok a => exact hf a hx

theorem mono (hx : x.Ensures P) (h : ∀ a, P a → Q a) : x.Ensures Q := by
  cases x with
  | error s => exact hx
  | ok a => exact h a hx

end Access.Ensures

end LearnNetlib
