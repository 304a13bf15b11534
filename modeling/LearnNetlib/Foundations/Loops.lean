import Mathlib.Data.List.Basic
import Mathlib.Tactic.Common

/-!
# Loops that may fail, leave early, or run too long

A loop is its turn: from the state at its head a turn fails, goes on with a new state, or leaves the
loop with a result.

* `loop` — at most `n` turns;
* `heads` — the states those turns start from;
* `heads_invariant`, `exists_loop_eq` — what holds at every head, and the loop seen from one;
* `heads_mono`, `loop_mono`, `loop_unique` — more turns;
* **`loop_total`** — an invariant and a variant: the loop leaves, and its result is as promised;
* `loop_total_of_heads` — the same when a turn is only known to go well at a good head;
* `loop_forever` — a set of heads the loop never leaves;
* **`loop_outcome`** — an invariant alone, kept only while a guard holds at every head: whatever the
  loop does is as promised;
* `loop_traps` — a second loop that does the same while a guard holds, and traps else.
-/

namespace LearnNetlib.Loops

variable {σ ω ε : Type*}

/-- At most `n` turns; `still` says that the loop has not left by then. -/
def loop (still : ε) (turn : σ → Except ε (σ ⊕ ω)) : ℕ → σ → Except ε ω
  | 0, _ => .error still
  | n + 1, s =>
    match turn s with
    | .error e => .error e
    | .ok (.inl s') => loop still turn n s'
    | .ok (.inr o) => .ok o

/-- The states at the head of the loop's turns. -/
def heads (turn : σ → Except ε (σ ⊕ ω)) : ℕ → σ → List σ
  | 0, _ => []
  | n + 1, s =>
    s :: match turn s with
      | .ok (.inl s') => heads turn n s'
      | _ => []

/-- **Total correctness.** -/
theorem loop_total {still : ε} {turn : σ → Except ε (σ ⊕ ω)} (Inv : σ → Prop) (Post : ω → Prop)
    (variant : σ → ℕ)
    (hturn : ∀ s, Inv s →
      (∃ s', turn s = .ok (.inl s') ∧ Inv s' ∧ variant s' < variant s) ∨
        ∃ o, turn s = .ok (.inr o) ∧ Post o)
    {n : ℕ} {s : σ} (hs : Inv s) (hn : variant s < n) :
    ∃ o, loop still turn n s = .ok o ∧ Post o := by
  induction n generalizing s with
  | zero => omega
  | succ n ih =>
    rcases hturn s hs with ⟨s', hgo, hs', hdec⟩ | ⟨o, hleave, ho⟩
    · obtain ⟨o, hloop, ho⟩ := ih hs' (by omega)
      exact ⟨o, by rw [loop, hgo]; exact hloop, ho⟩
    · exact ⟨o, by rw [loop, hleave], ho⟩

/-- An invariant of the turns holds at every head. -/
theorem heads_invariant {turn : σ → Except ε (σ ⊕ ω)} {Inv : σ → Prop}
    (hturn : ∀ s s', Inv s → turn s = .ok (.inl s') → Inv s') {n : ℕ} {s : σ} (hs : Inv s) :
    ∀ h ∈ heads turn n s, Inv h := by
  induction n generalizing s with
  | zero => simp [heads]
  | succ n ih =>
    rw [heads, List.forall_mem_cons]
    refine ⟨hs, ?_⟩
    cases hres : turn s with
    | error e => simp
    | ok r =>
      cases r with
      | inl s' => exact ih (hturn s s' hs hres)
      | inr o => simp

/-- More turns reach more heads. -/
theorem heads_mono {turn : σ → Except ε (σ ⊕ ω)} {n m : ℕ} (hnm : n ≤ m) {s h : σ}
    (hh : h ∈ heads turn n s) : h ∈ heads turn m s := by
  induction n generalizing m s with
  | zero => simp [heads] at hh
  | succ n ih =>
    obtain ⟨m, rfl⟩ : ∃ m', m = m' + 1 := ⟨m - 1, by omega⟩
    rw [heads, List.mem_cons] at hh ⊢
    rcases hh with rfl | hh
    · exact .inl rfl
    · refine .inr ?_
      cases hres : turn s with
      | error e => simp [hres] at hh
      | ok r =>
        cases r with
        | inl s' =>
          rw [hres] at hh
          exact ih (Nat.le_of_succ_le_succ hnm) hh
        | inr o => simp [hres] at hh

/-- A loop that has left has left. -/
theorem loop_mono {still : ε} {turn : σ → Except ε (σ ⊕ ω)} {n m : ℕ} (hnm : n ≤ m) {s : σ}
    (h : loop still turn n s ≠ .error still) : loop still turn m s = loop still turn n s := by
  induction n generalizing m s with
  | zero => exact absurd rfl h
  | succ n ih =>
    obtain ⟨m, rfl⟩ : ∃ m', m = m' + 1 := ⟨m - 1, by omega⟩
    rw [loop] at h ⊢
    rw [loop]
    cases hres : turn s with
    | error e => rfl
    | ok r =>
      cases r with
      | inl s' =>
        rw [hres] at h
        exact ih (Nat.le_of_succ_le_succ hnm) h
      | inr o => rfl

/-- A loop leaves with one result. -/
theorem loop_unique {still : ε} {turn : σ → Except ε (σ ⊕ ω)} {n m : ℕ} {s : σ} {o o' : ω}
    (h : loop still turn n s = .ok o) (h' : loop still turn m s = .ok o') : o = o' := by
  have hleft : ∀ {k : ℕ} {o : ω}, loop still turn k s = .ok o → loop still turn k s ≠ .error still := by
    intro k o hk hstill
    rw [hk] at hstill
    cases hstill
  rcases Nat.le_total n m with hnm | hmn
  · exact Except.ok.inj (h.symm.trans ((loop_mono hnm (hleft h)).symm.trans h'))
  · exact Except.ok.inj (h.symm.trans ((loop_mono hmn (hleft h')).trans h'))

/-- From each of its heads on the loop is the loop. -/
theorem exists_loop_eq {turn : σ → Except ε (σ ⊕ ω)} (still : ε) {n : ℕ} {s h : σ}
    (hh : h ∈ heads turn n s) : ∃ m, loop still turn n s = loop still turn (m + 1) h := by
  induction n generalizing s with
  | zero => simp [heads] at hh
  | succ n ih =>
    rw [heads, List.mem_cons] at hh
    rcases hh with rfl | hh
    · exact ⟨n, rfl⟩
    · rw [loop]
      cases hres : turn s with
      | error e => simp [hres] at hh
      | ok r =>
        cases r with
        | inl s' =>
          rw [hres] at hh
          exact ih hh
        | inr o => simp [hres] at hh

/-- **Total correctness under a guard.** -/
theorem loop_total_of_heads {still : ε} {turn : σ → Except ε (σ ⊕ ω)} (Inv Guard : σ → Prop)
    (Post : Except ε ω → Prop) (variant : σ → ℕ)
    (hturn : ∀ s, Inv s → Guard s →
      (∃ s', turn s = .ok (.inl s') ∧ Inv s' ∧ variant s' < variant s) ∨
        (∃ o, turn s = .ok (.inr o) ∧ Post (.ok o)) ∨ ∃ e, turn s = .error e ∧ Post (.error e))
    {n : ℕ} {s : σ} (hs : Inv s) (hn : variant s < n) (hguard : ∀ h ∈ heads turn n s, Guard h) :
    Post (loop still turn n s) := by
  induction n generalizing s with
  | zero => omega
  | succ n ih =>
    rw [heads] at hguard
    rw [loop]
    rcases hturn s hs (hguard s List.mem_cons_self) with
      ⟨s', hgo, hs', hdec⟩ | ⟨o, hleave, ho⟩ | ⟨e, hfail, he⟩
    · rw [hgo] at hguard ⊢
      exact ih hs' (by omega) fun h hh => hguard h (List.mem_cons_of_mem _ hh)
    · rwa [hleave]
    · rwa [hfail]

/-- **A loop that is never left.** -/
theorem loop_forever {still : ε} {turn : σ → Except ε (σ ⊕ ω)} {Stuck : σ → Prop}
    (hturn : ∀ s, Stuck s → ∃ s', turn s = .ok (.inl s') ∧ Stuck s') (n : ℕ) {s : σ} (hs : Stuck s) :
    loop still turn n s = .error still := by
  induction n generalizing s with
  | zero => rfl
  | succ n ih =>
    obtain ⟨s', hgo, hs'⟩ := hturn s hs
    rw [loop, hgo]
    exact ih hs'

/-- What a turn may do under an invariant and a promise about outcomes. -/
def TurnKeeps (Inv : σ → Prop) (Post : Except ε ω → Prop) : Except ε (σ ⊕ ω) → Prop
  | .error e => Post (.error e)
  | .ok (.inl s') => Inv s'
  | .ok (.inr o) => Post (.ok o)

/-- **Partial correctness under a guard.** -/
theorem loop_outcome {still : ε} {turn : σ → Except ε (σ ⊕ ω)} (Inv Guard : σ → Prop)
    (Post : Except ε ω → Prop) (hstill : Post (.error still))
    (hturn : ∀ s, Inv s → Guard s → TurnKeeps Inv Post (turn s))
    {n : ℕ} {s : σ} (hs : Inv s) (hguard : ∀ s' ∈ heads turn n s, Guard s') :
    Post (loop still turn n s) := by
  induction n generalizing s with
  | zero => exact hstill
  | succ n ih =>
    rw [heads] at hguard
    have hkeeps := hturn s hs (hguard s List.mem_cons_self)
    rw [loop]
    cases hres : turn s with
    | error e =>
      rw [hres] at hkeeps
      exact hkeeps
    | ok r =>
      rw [hres] at hkeeps hguard
      cases r with
      | inl s' => exact ih hkeeps fun t ht => hguard t (List.mem_cons_of_mem _ ht)
      | inr o => exact hkeeps

/-- **A second loop that traps.**  Its turns do at good heads what those of the first do, and trap at the others:
then so does the loop. -/
theorem loop_traps {ε' : Type*} {turn : σ → Except ε (σ ⊕ ω)} {turn' : σ → Except ε' (σ ⊕ ω)}
    {Inv Guard : σ → Prop} {f : ε → ε'} {trap : ε'}
    (hkeep : ∀ s s', Inv s → Guard s → turn s = .ok (.inl s') → Inv s')
    (hgood : ∀ s, Inv s → Guard s → turn' s = (turn s).mapError f)
    (hbad : ∀ s, Inv s → ¬ Guard s → turn' s = .error trap) (still : ε) {n : ℕ} {s : σ} (hs : Inv s) :
    ((∀ h ∈ heads turn n s, Guard h) →
        loop (f still) turn' n s = (loop still turn n s).mapError f) ∧
      (¬ (∀ h ∈ heads turn n s, Guard h) → loop (f still) turn' n s = .error trap) := by
  induction n generalizing s with
  | zero => exact ⟨fun _ => rfl, fun hno => absurd (by simp [heads]) hno⟩
  | succ n ih =>
    rw [heads, List.forall_mem_cons]
    by_cases hguard : Guard s
    · simp only [hguard, true_and, loop, hgood s hs hguard]
      cases hres : turn s with
      | error e => exact ⟨fun _ => rfl, fun hno => absurd (by simp) hno⟩
      | ok r =>
        cases r with
        | inl s' => exact ih (hkeep s s' hs hguard hres)
        | inr o => exact ⟨fun _ => rfl, fun hno => absurd (by simp) hno⟩
    · refine ⟨fun hall => absurd hall.1 hguard, fun _ => ?_⟩
      rw [loop, hbad s hs hguard]

end LearnNetlib.Loops
