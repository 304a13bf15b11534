import LearnNetlib.Base.Bytes

/-!
# Options, compression, and the assertions of `base/io/table`

* `Options`, `CompressionType` — `table_options.h`;
* `Snappy` — the compressor behind `port::Snappy_*`, a parameter; `Snappy.Lawful` is what its
  documentation promises;
* `Assertion`, `Checked` — computations stopped by a failing `assert`; `Checked.Ensures` — what they
  ensure when some assertions may fail.
-/

namespace LearnNetlib.Table

inductive CompressionType
  | noCompression
  | snappyCompression
  deriving Repr, DecidableEq

/-- The byte stored behind a block. -/
def CompressionType.toByte : CompressionType → UInt8
  | noCompression => 0x0
  | snappyCompression => 0x1

structure Options where
  blockSize : UInt64 := 262144
  blockRestartInterval : ℤ := 16
  compression : CompressionType := .snappyCompression
  deriving Repr, DecidableEq

/-- `Snappy_Compress` (which never fails), `Snappy_GetUncompressedLength` and `Snappy_Uncompress`;
the last gives the bytes put into the output buffer. -/
structure Snappy where
  compress : Bytes → Bytes
  getUncompressedLength : Bytes → Option ℕ
  uncompress : Bytes → Option Bytes

/-- What is relied on: decompression inverts compression. -/
structure Snappy.Lawful (snappy : Snappy) : Prop where
  length : ∀ raw, snappy.getUncompressedLength (snappy.compress raw) = some raw.length
  uncompress : ∀ raw, snappy.uncompress (snappy.compress raw) = some raw

/-- A compressor that leaves everything as it is. -/
def Snappy.identity : Snappy := ⟨id, fun b => some b.length, some⟩

theorem Snappy.identity_lawful : Snappy.identity.Lawful := ⟨fun _ => rfl, fun _ => rfl⟩

/-! ### Assertions -/

/-- The `assert`s of the writing side. -/
inductive Assertion
  | blockBuilderInterval
  | blockBuilderAddFinished
  | blockBuilderAddCounter
  | blockBuilderAddOrder
  | blockBuilderAddLastKey
  | separatorBelowLimit
  | handleOffsetSet
  | handleSizeSet
  | footerLength
  | addClosed
  | addOrder
  | addDataBlockEmpty
  | flushClosed
  | flushPending
  | writeBlockOk
  | finishClosed
  | abandonClosed
  deriving Repr, DecidableEq

/-- A computation that a failing assertion stops. -/
abbrev Checked (α : Type) := Except Assertion α

/-- `assert(p)`. -/
def check (a : Assertion) (p : Prop) [Decidable p] : Checked Unit := if p then .ok () else .error a

theorem check_of {a : Assertion} {p : Prop} [Decidable p] (h : p) : check a p = .ok () := if_pos h

@[simp] theorem Checked.ok_bind {α β : Type} (a : α) (f : α → Checked β) :
    (Except.ok a >>= f) = f a := rfl

@[simp] theorem Checked.error_bind {α β : Type} (e : Assertion) (f : α → Checked β) :
    ((Except.error e : Checked α) >>= f) = .error e := rfl

@[simp] theorem Checked.pure_eq {α : Type} (a : α) : (pure a : Checked α) = .ok a := rfl

/-- A result with the property `P`, or a failing assertion that `S` allows. -/
def Checked.Ensures {α : Type} (S : Assertion → Prop) (x : Checked α) (P : α → Prop) : Prop :=
  match x with
  | .ok a => P a
  | .error e => S e

namespace Checked.Ensures

variable {α β : Type} {S : Assertion → Prop} {x : Checked α} {f : α → Checked β} {P Q : α → Prop}
  {R : β → Prop}

theorem of_ok {a : α} (h : x = .ok a) (hP : P a) : x.Ensures S P := by
  rw [h]
  exact hP

theorem bind (hx : x.Ensures S P) (hf : ∀ a, P a → (f a).Ensures S R) : (x >>= f).Ensures S R := by
  cases x with
  | error e => exact hx
  | ok a => exact hf a hx

theorem mono (hx : x.Ensures S P) (h : ∀ a, P a → Q a) : x.Ensures S Q := by
  cases x with
  | error e => exact hx
  | ok a => exact h a hx

theorem and (hx : x.Ensures S P) (hx' : x.Ensures S Q) : x.Ensures S fun a => P a ∧ Q a := by
  cases x with
  | error e => exact hx
  | ok a => exact ⟨hx, hx'⟩

/-- The result is the one that is computed. -/
theorem and_eq (hx : x.Ensures S P) : x.Ensures S fun a => x = .ok a ∧ P a := by
  cases x with
  | error e => exact hx
  | ok a => exact ⟨rfl, hx⟩

/-- Where no assertion may fail, there is a result. -/
theorem eq_ok {a : α} (hx : x.Ensures (fun _ => False) (· = a)) : x = .ok a := by
  cases x with
  | error e => exact hx.elim
  | ok b => exact congrArg _ hx

/-- An assertion that holds, or may fail. -/
theorem check_bind {a : Assertion} {p : Prop} [Decidable p] {f : Unit → Checked β}
    (hp : p ∨ S a) (hf : p → (f ()).Ensures S R) : (check a p >>= f).Ensures S R := by
  by_cases h : p
  · rw [check_of h]
    exact hf h
  · rw [check, if_neg h]
    exact hp.resolve_left h

end Checked.Ensures

end LearnNetlib.Table
