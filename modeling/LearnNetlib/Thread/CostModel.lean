import Mathlib.Data.Rat.Defs
import Mathlib.Tactic.Common

/-!
# `thread::CostModel`

* `Doubles` — the operations on `double` the cost model uses; nothing is assumed of them;
* `OperatorCost`, `numThreads`, `taskSize` — the code of `base/thread/cost_model.h`;
* `Doubles.exact` — the same without rounding.
-/

namespace LearnNetlib.CostModel

/-- Operations on `double`; `toInt` is the conversion to `int`. -/
structure Doubles (D : Type) where
  ofInt : ℤ → D
  add : D → D → D
  sub : D → D → D
  mul : D → D → D
  div : D → D → D
  lt : D → D → Bool
  le : D → D → Bool
  toInt : D → ℤ

/-- `OperatorCost`. -/
structure OperatorCost (D : Type) where
  bytesLoaded : D
  bytesStored : D
  computeCycles : D

section

variable {D : Type} (ops : Doubles D)

/-- `OperatorCost::total_cost`. -/
def OperatorCost.totalCost (cost : OperatorCost D) (loadCost storeCost computeCost : D) : D :=
  ops.add
    (ops.add (ops.mul loadCost cost.bytesLoaded) (ops.mul storeCost cost.bytesStored))
    (ops.mul computeCost cost.computeCycles)

def kDeviceCyclesPerComputeCycle : ℤ := 1

def kStartupCycles : ℤ := 100000

def kPerThreadCycles : ℤ := 100000

def kTaskSize : ℤ := 40000

/-- `kLoadCycles`, and `kStoreCycles` as well. -/
def kLoadCycles : D := ops.mul (ops.div (ops.ofInt 1) (ops.ofInt 64)) (ops.ofInt 11)

/-- `TotalCost`. -/
def totalCost (outputSize : D) (costPerCoeff : OperatorCost D) : D :=
  ops.mul outputSize (costPerCoeff.totalCost ops (kLoadCycles ops) (kLoadCycles ops)
    (ops.ofInt kDeviceCyclesPerComputeCycle))

/-- `NumThreads`; 0.9 is the quotient of 9 and 10. -/
def numThreads (outputSize : D) (costPerCoeff : OperatorCost D) (maxThreads : ℤ) : ℤ :=
  let cost := totalCost ops outputSize costPerCoeff
  let threads := ops.toInt (ops.add
    (ops.div (ops.sub cost (ops.ofInt kStartupCycles)) (ops.ofInt kPerThreadCycles))
    (ops.div (ops.ofInt 9) (ops.ofInt 10)))
  min maxThreads (max 1 threads)

/-- `TaskSize`. -/
def taskSize (outputSize : D) (costPerCoeff : OperatorCost D) : D :=
  ops.div (totalCost ops outputSize costPerCoeff) (ops.ofInt kTaskSize)

end

/-- Exact numbers. -/
def Doubles.exact : Doubles ℚ where
  ofInt n := n
  add x y := x + y
  sub x y := x - y
  mul x y := x * y
  div x y := x / y
  lt x y := x < y
  le x y := x ≤ y
  toInt x := x.num.tdiv x.den

end LearnNetlib.CostModel
