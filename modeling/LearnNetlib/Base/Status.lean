import Mathlib.Tactic.Common

/-!
# `base::Status`

A status is OK (`state_ == NULL`) or carries a code other than OK and a message: the constructor's
assertion `code != error::OK` is kept by the type, since `ErrorCode` has no such value.
-/

namespace LearnNetlib

/-- `error::Code` without `OK` and the reserved value. -/
inductive ErrorCode
  | cancelled | unknown | invalidArgument | deadlineExceeded | notFound | alreadyExists
  | permissionDenied | unauthenticated | resourceExhausted | failedPrecondition | aborted
  | outOfRange | unimplemented | internal | unavailable | dataLoss
  deriving Repr, DecidableEq

/-- `base::Status`. -/
inductive Status
  | ok
  | error (code : ErrorCode) (msg : String)
  deriving Repr, DecidableEq

namespace Status

/-- `ok()`. -/
def isOk : Status → Bool
  | ok => true
  | error _ _ => false

@[simp] theorem isOk_ok : isOk ok = true := rfl

@[simp] theorem isOk_error (code : ErrorCode) (msg : String) : isOk (error code msg) = false := rfl

theorem isOk_iff (s : Status) : s.isOk = true ↔ s = ok := by
  cases s <;> simp

theorem ne_ok {s : Status} (h : ¬ s.isOk = true) : s ≠ ok := mt s.isOk_iff.mpr h

theorem isOk_eq_false_iff (s : Status) : s.isOk = false ↔ s ≠ ok := by
  cases s <;> simp

/-- `Update`. -/
def update (s newStatus : Status) : Status := if s.isOk then newStatus else s

/-- The first error of some calls, if one failed. -/
def firstError (statuses : List Status) : Status := (statuses.find? fun s => !s.isOk).getD ok

/-- **Updates keep the first error.** -/
theorem foldl_update (s : Status) (statuses : List Status) :
    statuses.foldl update s = firstError (s :: statuses) := by
  induction statuses generalizing s with
  | nil => cases s <;> rfl
  | cons t statuses ih =>
    rw [List.foldl_cons, ih]
    cases s with
    | ok => rfl
    | error code msg => rfl

theorem firstError_eq_ok_iff (statuses : List Status) :
    firstError statuses = ok ↔ ∀ s ∈ statuses, s = ok := by
  induction statuses with
  | nil => simp [firstError]
  | cons s statuses ih =>
    cases s with
    | ok =>
      rw [List.forall_mem_cons, ← ih]
      exact ⟨fun h => ⟨rfl, h⟩, fun h => h.2⟩
    | error code msg =>
      show error code msg = ok ↔ _
      simp

end Status

/-! ### `errors::` -/

namespace Errors

def dataLoss (msg : String) : Status := .error .dataLoss msg

def outOfRange (msg : String) : Status := .error .outOfRange msg

def invalidArgument (msg : String) : Status := .error .invalidArgument msg

/-- `errors::IsOutOfRange`. -/
def isOutOfRange : Status → Bool
  | .error .outOfRange _ => true
  | _ => false

/-- `errors::IsDataLoss`. -/
def isDataLoss : Status → Bool
  | .error .dataLoss _ => true
  | _ => false

@[simp] theorem isOutOfRange_ok : isOutOfRange .ok = false := rfl

@[simp] theorem isOutOfRange_outOfRange (msg : String) : isOutOfRange (outOfRange msg) = true := rfl

@[simp] theorem isDataLoss_dataLoss (msg : String) : isDataLoss (dataLoss msg) = true := rfl

end Errors

end LearnNetlib
