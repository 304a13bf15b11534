import LearnNetlib.Random.ExactUniformInt
import LearnNetlib.Random.PhiloxRandom

/-!
# `random::SimplePhilox`

* `SingleSampleAdapter.call` — the adapter of `base/random/random_distributions.h`;
* `SimplePhilox.rand32`, `rand64`, `uniform`, `uniform64` — the code of `base/random/simple_philox.h` and
  `.cc`;
* **`draw_rand32`** — the words drawn one at a time are the samples of the generator, word by word;
* **`uniform_returns`** — a call returns what the first word lands on that is not rejected.
-/

namespace LearnNetlib.Random

open LearnNetlib.RejectionSampling

/-! ### The code -/

/-- `unused_results_[i]`. -/
def ResultType.get (r : ResultType) : Fin 4 → UInt32
  | 0 => r.x0
  | 1 => r.x1
  | 2 => r.x2
  | 3 => r.x3

/-- `SingleSampleAdapter<PhiloxRandom>`; four results are used up at most. -/
structure SingleSampleAdapter where
  generator : PhiloxRandom
  unusedResults : ResultType
  usedResultIndex : Fin 5
  deriving Repr, DecidableEq

namespace SingleSampleAdapter

/-- `operator()`. -/
def call (a : SingleSampleAdapter) : UInt32 × SingleSampleAdapter :=
  if h : a.usedResultIndex < 4 then
    (a.unusedResults.get ⟨a.usedResultIndex, h⟩, { a with usedResultIndex := a.usedResultIndex + 1 })
  else
    let (results, generator) := a.generator.sample
    (results.get 0, ⟨generator, results, 1⟩)

end SingleSampleAdapter

/-- `SimplePhilox`. -/
structure SimplePhilox where
  single : SingleSampleAdapter
  deriving Repr, DecidableEq

namespace SimplePhilox

/-- `SimplePhilox(gen)`, whose adapter has used up the results it does not have. -/
def new (gen : PhiloxRandom) (results : ResultType) : SimplePhilox := ⟨gen, results, 4⟩

/-- `Rand32`. -/
def rand32 (r : SimplePhilox) : BitVec 32 × SimplePhilox :=
  let (x, single) := r.single.call
  (x.toBitVec, ⟨single⟩)

/-- `Rand64`. -/
def rand64 (r : SimplePhilox) : BitVec 64 × SimplePhilox :=
  let (lo, r) := r.rand32
  let (hi, r) := r.rand32
  (lo.setWidth 64 ||| hi.setWidth 64 <<< 32, r)

/-- `Uniform`. -/
def uniform (n : BitVec 32) (turns : ℕ) (r : SimplePhilox) : Except DrawFailure (BitVec 32 × SimplePhilox) :=
  exactUniformInt n rand32 turns r

/-- `Uniform64`. -/
def uniform64 (n : BitVec 64) (turns : ℕ) (r : SimplePhilox) :
    Except DrawFailure (BitVec 64 × SimplePhilox) :=
  exactUniformInt n rand64 turns r

/-! ### The words -/

/-- Four words use up one sample. -/
theorem draw_add_four (m : ℕ) (gen : PhiloxRandom) (results : ResultType) :
    draw rand32 (m + 4) (new gen results) = draw rand32 m (new gen.sample.2 gen.sample.1) := rfl

/-- **No word is lost**: the words are those of one sample after the other. -/
theorem draw_rand32 (q : ℕ) (i : Fin 4) (gen : PhiloxRandom) (results : ResultType) :
    (draw rand32 (4 * q + i) (new gen results)).1 = ((gen.sampleN q).sample.1.get i).toBitVec := by
  induction q generalizing gen results with
  | zero =>
    match i with
    | 0 | 1 | 2 | 3 => rfl
  | succ q ih =>
    rw [show 4 * (q + 1) + (i : ℕ) = 4 * q + i + 4 by omega, draw_add_four, ih,
      PhiloxRandom.sampleN, PhiloxRandom.sampleN, Function.iterate_succ_apply]

/-! ### The calls -/

variable {n : BitVec 32}

/-- **A call of `Uniform`** returns what the first word lands on that is not rejected, a number below
`n`. -/
theorem uniform_returns (hn : n ≠ 0) {turns : ℕ} {r r' : SimplePhilox} {v : BitVec 32}
    (h : uniform n (turns + 1) r = .ok (v, r')) :
    v.toNat < n.toNat ∧ ∃ m < turns + 1, (∀ i < m, settle n (draw rand32 i r).1 = none) ∧
      settle n (draw rand32 m r).1 = some v ∧ (draw rand32 m r).2 = r' := by
  rw [uniform, exactUniformInt_eq_loop hn] at h
  obtain ⟨m, hm, hnone, hsome, hr'⟩ := loop_sift_eq_ok_iff.mp h
  exact ⟨settle_lt hn hsome, m, hm, hnone, hsome, hr'⟩

end SimplePhilox

end LearnNetlib.Random
