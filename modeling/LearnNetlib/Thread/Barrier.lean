import LearnNetlib.Thread.SimpleThreadPool

/-!
# `thread::Barrier`

A counter and a flag in one word.  The steps are the atomic operations on `state_` and the sections under
`mu_`; there are as many `Notify` calls as there are to be, and any number of `Wait` calls.

* `notify`, `notifyLocked`, `wait`, `waitLocked` — the code of `base/thread/device_thread_pool.h`;
* `Inv`, `step_inv` — the invariant of all interleavings: `state_` is twice the number of calls still to
  come, plus the flag, and whoever sleeps will be woken;
* `Sound` — what a barrier is for;
* **`barrier_sound_iff`** — it is that for every count `state_` has room for, and for no other.
-/

namespace LearnNetlib.Barrier

open LearnNetlib.Runs LearnNetlib.SimpleThreadPool

/-! ### The code -/

/-- Where a call of `Notify` is: not begun, in front of `mu_`, or through. -/
inductive NotifyPc
  | notStarted
  | locking
  | returned
  deriving Repr, DecidableEq

/-- Where a call of `Wait` is: not begun, in front of `mu_`, in `cv_.wait`, or through. -/
inductive WaitPc
  | notStarted
  | locking
  | waiting
  | returned
  deriving Repr, DecidableEq

/-- A barrier and the calls of `Notify` and `Wait`.  `notifications` is the number of times `notified_`
has been set, `assertFailed` whether an `assert` has failed. -/
structure State (n m : ℕ) where
  state : UInt32
  notified : Bool
  notifiers : Fin n → NotifyPc
  waiters : Fin m → WaitPc
  notifications : ℕ
  assertFailed : Bool

section

variable {n m : ℕ}

/-- `Barrier(count)`. -/
def init (n m : ℕ) (count : UInt32) : State n m :=
  ⟨count <<< 1, false, fun _ => .notStarted, fun _ => .notStarted, 0, false⟩

/-- `Notify` up to `mu_`. -/
def notify (i : Fin n) (s : State n m) : State n m :=
  let v := s.state - 2
  let s := { s with state := v }
  if v ≠ 1 then
    if (v + 2) &&& ~~~1 ≠ 0 then
      -- either count has not dropped to 0, or waiter is not waiting
      { s with notifiers := Function.update s.notifiers i .returned }
    else { s with assertFailed := true }
  else { s with notifiers := Function.update s.notifiers i .locking }

/-- `Notify` under `mu_`; `notify_all` sends those that sleep back to `mu_`. -/
def notifyLocked (i : Fin n) (s : State n m) : State n m :=
  if s.notified then { s with assertFailed := true }
  else { s with
    notified := true
    notifications := s.notifications + 1
    notifiers := Function.update s.notifiers i .returned
    waiters := fun j => if s.waiters j = .waiting then .locking else s.waiters j }

/-- `Wait` up to `mu_`. -/
def wait (j : Fin m) (s : State n m) : State n m :=
  let v := s.state
  let s := { s with state := v ||| 1 }
  if v >>> 1 = 0 then { s with waiters := Function.update s.waiters j .returned }
  else { s with waiters := Function.update s.waiters j .locking }

/-- `Wait` under `mu_`, to where it returns or sleeps. -/
def waitLocked (j : Fin m) (s : State n m) : State n m :=
  if s.notified then { s with waiters := Function.update s.waiters j .returned }
  else { s with waiters := Function.update s.waiters j .waiting }

/-- A wake-up without a cause. -/
def wakeUp (j : Fin m) (s : State n m) : State n m :=
  { s with waiters := Function.update s.waiters j .locking }

/-- The steps. -/
inductive Action (n m : ℕ)
  | notify (i : Fin n)
  | notifyLocked (i : Fin n)
  | wait (j : Fin m)
  | waitLocked (j : Fin m)
  | wakeUp (j : Fin m)

/-- Where a call has to be for its step. -/
def Ready (s : State n m) : Action n m → Prop
  | .notify i => s.notifiers i = .notStarted
  | .notifyLocked i => s.notifiers i = .locking
  | .wait j => s.waiters j = .notStarted
  | .waitLocked j => s.waiters j = .locking
  | .wakeUp j => s.waiters j = .waiting

instance decidableReady (s : State n m) : ∀ a, Decidable (Ready s a)
  | .notify i => inferInstanceAs (Decidable (s.notifiers i = .notStarted))
  | .notifyLocked i => inferInstanceAs (Decidable (s.notifiers i = .locking))
  | .wait j => inferInstanceAs (Decidable (s.waiters j = .notStarted))
  | .waitLocked j => inferInstanceAs (Decidable (s.waiters j = .locking))
  | .wakeUp j => inferInstanceAs (Decidable (s.waiters j = .waiting))

/-- What may happen.  Nothing does once an `assert` has failed. -/
def Enabled (s : State n m) (a : Action n m) : Prop := s.assertFailed = false ∧ Ready s a

instance decidableEnabled (s : State n m) (a : Action n m) : Decidable (Enabled s a) :=
  inferInstanceAs (Decidable (_ ∧ _))

/-- What comes of it. -/
def next (s : State n m) : Action n m → State n m
  | .notify i => Barrier.notify i s
  | .notifyLocked i => Barrier.notifyLocked i s
  | .wait j => Barrier.wait j s
  | .waitLocked j => Barrier.waitLocked j s
  | .wakeUp j => Barrier.wakeUp j s

/-- The transition system. -/
def step : State n m → Action n m → Except Unit (Unit × State n m) := ofEnabled Enabled next

/-! ### What it is for -/

/-- The steps of one call of `Wait`. -/
def Action.IsWait (j : Fin m) : Action n m → Prop
  | .wait j' => j' = j
  | .waitLocked j' => j' = j
  | .wakeUp j' => j' = j
  | _ => False

/-- No `Wait` returns before every `Notify` has counted down; `notified_` is set once at most and no
`assert` fails; and once all `Notify` calls are through, every `Wait` that has not returned can move, and
returns when it does. -/
structure Sound (s : State n m) : Prop where
  early : (∃ j, s.waiters j = .returned) → ∀ i, s.notifiers i ≠ .notStarted
  once : s.notifications ≤ 1
  asserts : s.assertFailed = false
  served : (∀ i, s.notifiers i = .returned) → ∀ j, s.waiters j ≠ .returned →
    (∃ a, a.IsWait j ∧ Enabled s a) ∧
      ∀ a, a.IsWait j → Enabled s a → (next s a).waiters j = .returned

end

/-! ### The word -/

theorem toNat_or_one (v : UInt32) : (v ||| 1).toNat = v.toNat / 2 * 2 + 1 := by
  have hhigh : (v.toNat ||| 1) / 2 = v.toNat / 2 := by
    rw [Nat.or_div_two]
    exact Nat.or_zero _
  have hlow : (v.toNat ||| 1) % 2 = 1 := Nat.or_mod_two_eq_one.mpr (.inr rfl)
  rw [UInt32.toNat_or, UInt32.toNat_one]
  omega

theorem shiftRight_one_eq_zero_iff (v : UInt32) : v >>> 1 = 0 ↔ v.toNat < 2 := by
  rw [← UInt32.toNat_inj, UInt32.toNat_shiftRight]
  change v.toNat >>> 1 = 0 ↔ _
  rw [Nat.shiftRight_eq_div_pow]
  omega

theorem and_not_one_ne_zero_iff (v : UInt32) : v &&& ~~~1 ≠ 0 ↔ 2 ≤ v.toNat := by
  have hbound := v.toNat_lt
  have hhigh : (v.toNat &&& 4294967294) / 2 = v.toNat / 2 := by
    rw [Nat.and_div_two]
    change v.toNat / 2 &&& 2 ^ 31 - 1 = _
    rw [Nat.and_two_pow_sub_one_eq_mod]
    omega
  have hlow : (v.toNat &&& 4294967294) % 2 ≠ 1 := fun h =>
    absurd (Nat.and_mod_two_eq_one.mp h).2 (by decide)
  rw [ne_eq, ← UInt32.toNat_inj, UInt32.toNat_and]
  change ¬ v.toNat &&& 4294967294 = 0 ↔ _
  omega

theorem toNat_shiftLeft_one (v : UInt32) : (v <<< 1).toNat = 2 * v.toNat % 2 ^ 32 := by
  rw [UInt32.toNat_shiftLeft]
  change v.toNat <<< 1 % 2 ^ 32 = _
  rw [Nat.shiftLeft_eq, Nat.mul_comm]

theorem toNat_sub_two {v : UInt32} (hv : 2 ≤ v.toNat) : (v - 2).toNat = v.toNat - 2 :=
  UInt32.toNat_sub_of_le v 2 (UInt32.le_iff_toNat_le.mpr hv)

/-! ### The invariant -/

section

variable {n m : ℕ} {s : State n m} {i : Fin n} {j : Fin m}

/-- The number of `Notify` calls that have not counted down. -/
def remaining (notifiers : Fin n → NotifyPc) : ℕ :=
  ∑ i, if notifiers i = .notStarted then 1 else 0

section

variable {f : Fin n → NotifyPc} {pc : NotifyPc}

theorem remaining_eq_zero_iff : remaining f = 0 ↔ ∀ i, f i ≠ .notStarted := by
  simp [remaining]

theorem remaining_pos (h : f i = .notStarted) : 0 < remaining f := by
  refine Nat.pos_of_ne_zero fun hzero => ?_
  exact remaining_eq_zero_iff.mp hzero i h

/-- A call that counts down. -/
theorem remaining_update (h : f i = .notStarted) (hpc : pc ≠ .notStarted) :
    remaining (Function.update f i pc) + 1 = remaining f := by
  have hsum := sum_update (fun pc => if pc = NotifyPc.notStarted then 1 else 0) f i pc
  simp only [h, hpc, if_true, if_false, Nat.add_zero] at hsum
  exact hsum

/-- A call that has counted down before. -/
theorem remaining_update_of_ne (h : f i ≠ .notStarted) (hpc : pc ≠ .notStarted) :
    remaining (Function.update f i pc) = remaining f := by
  have hsum := sum_update (fun pc => if pc = NotifyPc.notStarted then 1 else 0) f i pc
  simp only [h, hpc, if_false, Nat.add_zero] at hsum
  exact hsum

/-- Only the call that has moved can have got to `mu_`. -/
theorem eq_of_update_locking (h : ∀ k, f k = .locking → k = i) {k : Fin n}
    (hk : Function.update f i pc k = .locking) : k = i := by
  by_contra hne
  rw [Function.update_of_ne hne] at hk
  exact hne (h k hk)

/-- Once it has returned, none is there. -/
theorem update_returned_ne_locking (h : ∀ k, f k = .locking → k = i) (k : Fin n) :
    Function.update f i .returned k ≠ .locking := by
  intro hk
  rw [eq_of_update_locking h hk, Function.update_self] at hk
  cases hk

end

/-- What holds in every state that can be reached. -/
structure Inv (s : State n m) : Prop where
  count : s.state.toNat / 2 = remaining s.notifiers
  flag : s.state.toNat % 2 = 1 ↔ ∃ j, s.waiters j ≠ .notStarted
  once : s.notifications = s.notified.toNat
  asserts : s.assertFailed = false
  last : ∀ i, s.notifiers i = .locking →
    remaining s.notifiers = 0 ∧ s.notified = false ∧ ∀ k, s.notifiers k = .locking → k = i
  awake : s.notified = true → remaining s.notifiers = 0 ∧ ∀ j, s.waiters j ≠ .waiting
  early : ∀ j, s.waiters j = .returned → remaining s.notifiers = 0
  served : ∀ j, s.waiters j = .locking ∨ s.waiters j = .waiting →
    0 < remaining s.notifiers ∨ s.notified = true ∨ ∃ i, s.notifiers i = .locking

/-- A barrier that has room for its count. -/
theorem inv_init {count : UInt32} (hn : count.toNat = n) (hcount : n < 2 ^ 31) :
    Inv (init n m count) := by
  have hword : (count <<< 1).toNat = 2 * n := by
    rw [toNat_shiftLeft_one, hn]
    omega
  refine ⟨?_, ?_, rfl, rfl, nofun, nofun, nofun, ?_⟩
  · simp [init, hword, remaining]
  · simp [init, hword]
  · rintro j (h | h) <;> cases h

theorem notify_of_last (h : s.state - 2 = 1) : notify i s
    = { s with state := s.state - 2, notifiers := Function.update s.notifiers i .locking } := by
  rw [notify, if_neg (not_not_intro h)]

theorem notify_of_not_last (h : s.state - 2 ≠ 1) (hstate : 2 ≤ s.state.toNat) : notify i s
    = { s with state := s.state - 2, notifiers := Function.update s.notifiers i .returned } := by
  have hback : s.state - 2 + 2 = s.state := UInt32.sub_add_cancel s.state 2
  rw [notify, if_pos h, if_pos (by rw [hback, and_not_one_ne_zero_iff]; exact hstate)]

/-- **`Notify` up to `mu_`.** -/
theorem notify_inv (hinv : Inv s) (hi : s.notifiers i = .notStarted) : Inv (notify i s) := by
  have hpos := remaining_pos hi
  have hcount := hinv.count
  have hstate : 2 ≤ s.state.toNat := by omega
  have hv := toNat_sub_two hstate
  have hquiet : s.notified ≠ true := fun h => absurd (hinv.awake h).1 (by omega)
  have hlock : ∀ k, s.notifiers k = .locking → k = i := fun k h =>
    absurd (hinv.last k h).1 (by omega)
  have hopen : ∀ j, s.waiters j ≠ .returned := fun j h => absurd (hinv.early j h) (by omega)
  have hflag : (s.state - 2).toNat % 2 = 1 ↔ ∃ j, s.waiters j ≠ .notStarted := by
    rw [← hinv.flag, hv]
    omega
  by_cases hlast : s.state - 2 = 1
  · rw [notify_of_last hlast]
    have hone : (s.state - 2).toNat = 1 := congrArg UInt32.toNat hlast
    have hremaining := remaining_update hi (by decide : NotifyPc.locking ≠ .notStarted)
    have hzero : remaining (Function.update s.notifiers i .locking) = 0 := by omega
    refine ⟨by dsimp only; omega, hflag, hinv.once, hinv.asserts, fun k hk => ?_,
      fun h => absurd h hquiet, fun j h => absurd h (hopen j),
      fun j _ => .inr (.inr ⟨i, Function.update_self ..⟩)⟩
    refine ⟨hzero, Bool.eq_false_iff.mpr hquiet, fun k' hk' => ?_⟩
    rw [eq_of_update_locking hlock hk, eq_of_update_locking hlock hk']
  · rw [notify_of_not_last hlast hstate]
    have hremaining := remaining_update hi (by decide : NotifyPc.returned ≠ .notStarted)
    refine ⟨?_, hflag, hinv.once, hinv.asserts,
      fun k hk => absurd hk (update_returned_ne_locking hlock k), fun h => absurd h hquiet,
      fun j h => absurd h (hopen j), fun j hj => .inl ?_⟩
    · dsimp only
      omega
    · -- the flag is set, so that the counter is not 0
      have hset : (s.state - 2).toNat % 2 = 1 := hflag.mpr ⟨j, fun h => by
        dsimp only at hj
        rw [h] at hj
        rcases hj with h | h <;> cases h⟩
      have hne : (s.state - 2).toNat ≠ 1 := fun h => hlast (UInt32.toNat_inj.mp h)
      dsimp only
      omega

/-- **`Notify` under `mu_`.** -/
theorem notifyLocked_inv (hinv : Inv s) (hi : s.notifiers i = .locking) : Inv (notifyLocked i s) := by
  obtain ⟨hzero, hquiet, honly⟩ := hinv.last i hi
  rw [notifyLocked, if_neg (by rw [hquiet]; decide)]
  have hremaining : remaining (Function.update s.notifiers i .returned) = remaining s.notifiers :=
    remaining_update_of_ne (by rw [hi]; decide) (by decide)
  have honce := hinv.once
  rw [hquiet] at honce
  have hstarted : ∀ j, (if s.waiters j = .waiting then WaitPc.locking else s.waiters j) ≠ .notStarted
      ↔ s.waiters j ≠ .notStarted := fun j => by
    split_ifs with h
    · rw [h]
      decide
    · rfl
  refine ⟨hinv.count.trans hremaining.symm, ?_, congrArg (· + 1) honce, hinv.asserts,
    fun k hk => absurd hk (update_returned_ne_locking honly k),
    fun _ => ⟨hremaining.trans hzero, fun j h => ?_⟩, fun j _ => hremaining.trans hzero,
    fun j _ => .inr (.inl rfl)⟩
  · simp only [hstarted]
    exact hinv.flag
  · dsimp only at h
    split_ifs at h with hj
    exact hj h

/-- A `Wait` that moves on. -/
theorem Inv.update_waiters (hinv : Inv s) {word : UInt32} {pc : WaitPc}
    (hcount : word.toNat / 2 = s.state.toNat / 2) (hflag : word.toNat % 2 = 1)
    (hpc : pc ≠ .notStarted) (hawake : s.notified = true → pc ≠ .waiting)
    (hearly : pc = .returned → remaining s.notifiers = 0)
    (hserved : pc ≠ .returned →
      0 < remaining s.notifiers ∨ s.notified = true ∨ ∃ i, s.notifiers i = .locking) :
    Inv { s with state := word, waiters := Function.update s.waiters j pc } := by
  have hcases : ∀ k, Function.update s.waiters j pc k = pc ∨
      Function.update s.waiters j pc k = s.waiters k := fun k => by
    by_cases hkj : k = j
    · rw [hkj]
      exact .inl (Function.update_self ..)
    · exact .inr (Function.update_of_ne hkj ..)
  refine ⟨hcount.trans hinv.count, iff_of_true hflag ⟨j, fun h => ?_⟩, hinv.once, hinv.asserts,
    hinv.last, fun h => ⟨(hinv.awake h).1, fun k hk => ?_⟩, fun k hk => ?_, fun k hk => ?_⟩
  · exact hpc ((Function.update_self ..).symm.trans h)
  · rcases hcases k with hk' | hk'
    · exact hawake h (hk'.symm.trans hk)
    · exact (hinv.awake h).2 k (hk'.symm.trans hk)
  · rcases hcases k with hk' | hk'
    · exact hearly (hk'.symm.trans hk)
    · exact hinv.early k (hk'.symm.trans hk)
  · dsimp only at hk
    rcases hcases k with hk' | hk' <;> rw [hk'] at hk
    · exact hserved fun h => by rcases hk with hk | hk <;> rw [h] at hk <;> cases hk
    · exact hinv.served k hk

theorem wait_of_zero (h : s.state >>> 1 = 0) : wait j s
    = { s with state := s.state ||| 1, waiters := Function.update s.waiters j .returned } :=
  if_pos h

/-- **`Wait` up to `mu_`.** -/
theorem wait_inv (hinv : Inv s) : Inv (wait j s) := by
  have hor := toNat_or_one s.state
  have hword : (s.state ||| 1).toNat / 2 = s.state.toNat / 2 := by omega
  have hflag : (s.state ||| 1).toNat % 2 = 1 := by omega
  have hcount := hinv.count
  rw [wait]
  split_ifs with hzero
  · rw [shiftRight_one_eq_zero_iff] at hzero
    exact hinv.update_waiters hword hflag (by decide) (fun _ => by decide) (fun _ => by omega)
      (fun h => absurd rfl h)
  · rw [shiftRight_one_eq_zero_iff] at hzero
    exact hinv.update_waiters hword hflag (by decide) (fun _ => by decide) nofun
      (fun _ => .inl (by omega))

/-- **`Wait` under `mu_`.** -/
theorem waitLocked_inv (hinv : Inv s) (hj : s.waiters j = .locking) : Inv (waitLocked j s) := by
  have hflag := hinv.flag.mpr ⟨j, by rw [hj]; decide⟩
  rw [waitLocked]
  split_ifs with hnotified
  · exact hinv.update_waiters rfl hflag (by decide) (fun _ => by decide)
      (fun _ => (hinv.awake hnotified).1) (fun h => absurd rfl h)
  · exact hinv.update_waiters rfl hflag (by decide) (fun h => absurd h hnotified) nofun
      (fun _ => hinv.served j (.inl hj))

/-- A wake-up without a cause. -/
theorem wakeUp_inv (hinv : Inv s) (hj : s.waiters j = .waiting) : Inv (wakeUp j s) :=
  hinv.update_waiters rfl (hinv.flag.mpr ⟨j, by rw [hj]; decide⟩) (by decide) (fun _ => by decide)
    nofun (fun _ => hinv.served j (.inr hj))

/-- **Every step** keeps the invariant. -/
theorem step_inv (s : State n m) (a : Action n m) (o : Unit) (s' : State n m) (hinv : Inv s)
    (hstep : step s a = .ok (o, s')) : Inv s' := by
  obtain ⟨⟨-, hready⟩, rfl⟩ := ofEnabled_eq_ok.mp hstep
  cases a with
  | notify i => exact notify_inv hinv hready
  | notifyLocked i => exact notifyLocked_inv hinv hready
  | wait j => exact wait_inv hinv
  | waitLocked j => exact waitLocked_inv hinv hready
  | wakeUp j => exact wakeUp_inv hinv hready

/-- Once all `Notify` calls are through, a `Wait` that has not returned is in front of `fetch_or` or of
`mu_`, and `notified_` is set if it is in front of `mu_`. -/
theorem Inv.sound (hinv : Inv s) : Sound s := by
  refine ⟨fun ⟨j, hj⟩ => remaining_eq_zero_iff.mp (hinv.early j hj), ?_, hinv.asserts,
    fun hall j hj => ?_⟩
  · rw [hinv.once]
    exact Bool.toNat_le _
  · have hzero : remaining s.notifiers = 0 :=
      remaining_eq_zero_iff.mpr fun i => by rw [hall i]; decide
    have hstate : s.state >>> 1 = 0 := by
      have hcount := hinv.count
      rw [shiftRight_one_eq_zero_iff]
      omega
    have hnotified : s.waiters j = .locking ∨ s.waiters j = .waiting → s.notified = true := fun h => by
      rcases hinv.served j h with hpos | hset | ⟨i, hi⟩
      · omega
      · exact hset
      · rw [hall i] at hi
        cases hi
    have hasleep : s.waiters j ≠ .waiting := fun h => (hinv.awake (hnotified (.inr h))).2 j h
    constructor
    · cases hpc : s.waiters j with
      | notStarted => exact ⟨.wait j, rfl, hinv.asserts, hpc⟩
      | locking => exact ⟨.waitLocked j, rfl, hinv.asserts, hpc⟩
      | waiting => exact absurd hpc hasleep
      | returned => exact absurd hpc hj
    · rintro a ha ⟨-, hready⟩
      cases a with
      | wait k =>
        obtain rfl : k = j := ha
        change (wait k s).waiters k = .returned
        rw [wait_of_zero hstate]
        dsimp only
        rw [Function.update_self]
      | waitLocked k =>
        obtain rfl : k = j := ha
        change (waitLocked k s).waiters k = .returned
        rw [waitLocked, if_pos (hnotified (.inl hready))]
        exact Function.update_self ..
      | wakeUp k =>
        obtain rfl : k = j := ha
        exact absurd hready hasleep
      | notify i => cases ha
      | notifyLocked i => cases ha

/-! ### A count `state_` has no room for -/

/-- The barrier once the first `k` calls have counted down, and nobody waits. -/
def drained (n m : ℕ) (count : UInt32) (k : ℕ) : State n m :=
  { init n m count with
    state := count <<< 1 - UInt32.ofNat (2 * k)
    notifiers := fun i => if i.1 < k then .returned else .notStarted }

/-- The count that is left of one that is too large. -/
theorem toNat_drained {count : UInt32} {k : ℕ} (hk : 2 ^ 31 + k ≤ count.toNat) :
    (count <<< 1 - UInt32.ofNat (2 * k)).toNat = 2 * (count.toNat - 2 ^ 31 - k) := by
  have hbound := count.toNat_lt
  have hshift : (count <<< 1).toNat = 2 * (count.toNat - 2 ^ 31) := by
    rw [toNat_shiftLeft_one]
    omega
  have hsub : (UInt32.ofNat (2 * k)).toNat = 2 * k := UInt32.toNat_ofNat_of_lt' (by
    change 2 * k < 2 ^ 32
    omega)
  rw [UInt32.toNat_sub_of_le _ _ (UInt32.le_iff_toNat_le.mpr (by omega)), hshift, hsub]
  omega

theorem notify_drained {count : UInt32} {k : ℕ} (hk : 2 ^ 31 + k < count.toNat) (hkn : k < n) :
    notify ⟨k, hkn⟩ (drained n m count k) = drained n m count (k + 1) := by
  have hword : (drained n m count k).state.toNat = 2 * (count.toNat - 2 ^ 31 - k) :=
    toNat_drained (by omega)
  have hsub := toNat_sub_two (v := (drained n m count k).state) (by omega)
  have hnext : (drained n m count k).state - 2 = (drained n m count (k + 1)).state := by
    have hword' : (drained n m count (k + 1)).state.toNat = 2 * (count.toNat - 2 ^ 31 - (k + 1)) :=
      toNat_drained hk
    rw [← UInt32.toNat_inj, hword']
    omega
  have hodd : (drained n m count k).state - 2 ≠ 1 := fun h => by
    have hone := congrArg UInt32.toNat h
    rw [UInt32.toNat_one] at hone
    omega
  rw [notify_of_not_last hodd (by omega), hnext]
  refine congrArg (State.mk (drained n m count (k + 1)).state false · (fun _ => .notStarted) 0 false)
    (funext fun i => ?_)
  by_cases hi : i = ⟨k, hkn⟩
  · rw [hi, Function.update_self]
    exact (if_pos (Nat.lt_succ_self k)).symm
  · rw [Function.update_of_ne hi]
    have hne : i.1 ≠ k := fun h => hi (Fin.ext h)
    have hlt : i.1 < k ↔ i.1 < k + 1 := by omega
    simp only [drained, hlt]

theorem run_drained (count : UInt32) {k : ℕ} (hk : 2 ^ 31 + k ≤ count.toNat) (hkn : k ≤ n) :
    ∃ as os, run step (init n m count) as = .ok (os, drained n m count k) := by
  induction k with
  | zero => exact ⟨[], [], by simp [run, drained, init]⟩
  | succ k ih =>
    obtain ⟨as, os, hrun⟩ := ih (by omega) (by omega)
    have hready : Enabled (drained n m count k) (.notify ⟨k, hkn⟩) :=
      ⟨rfl, if_neg (Nat.lt_irrefl k)⟩
    have hstep : step (drained n m count k) (.notify ⟨k, hkn⟩)
        = .ok ((), drained n m count (k + 1)) :=
      ofEnabled_eq_ok.mpr ⟨hready, notify_drained (by omega) hkn⟩
    refine ⟨as ++ [.notify ⟨k, hkn⟩], os ++ [()], ?_⟩
    rw [run_append, hrun]
    simp only [run, hstep, Except.map]

/-- With the counter at 0 too soon, a `Wait` returns too soon. -/
theorem exists_run_not_sound (count : UInt32) (hcount : 2 ^ 31 ≤ count.toNat) :
    ∃ as os s, run step (init count.toNat 1 count) as = .ok (os, s) ∧ ¬ Sound s := by
  obtain ⟨k, hk⟩ : ∃ k, k = count.toNat - 2 ^ 31 := ⟨_, rfl⟩
  obtain ⟨as, os, hrun⟩ := run_drained (n := count.toNat) (m := 1) count (k := k)
    (by omega) (by omega)
  have hword : (drained count.toNat 1 count k).state.toNat = 0 := by
    change (count <<< 1 - UInt32.ofNat (2 * k)).toNat = 0
    rw [toNat_drained (by omega)]
    omega
  have hzero : (drained count.toNat 1 count k).state >>> 1 = 0 := by
    rw [shiftRight_one_eq_zero_iff]
    omega
  have hstep : step (drained count.toNat 1 count k) (.wait 0)
      = .ok ((), wait 0 (drained count.toNat 1 count k)) :=
    ofEnabled_eq_ok.mpr ⟨⟨rfl, rfl⟩, rfl⟩
  refine ⟨as ++ [.wait 0], os ++ [()], wait 0 (drained count.toNat 1 count k), ?_, fun hsound => ?_⟩
  · rw [run_append, hrun]
    simp only [run, hstep, Except.map]
  · have hwait := wait_of_zero (j := 0) hzero
    refine hsound.early ⟨0, ?_⟩ ⟨k, by omega⟩ ?_
    · rw [hwait]
      dsimp only
      rw [Function.update_self]
    · rw [hwait]
      exact if_neg (Nat.lt_irrefl k)

/-- The smallest such count: the counter is 0 from the start. -/
theorem barrier_not_sound :
    ¬ ∀ (m : ℕ) (as : List (Action (2147483648 : UInt32).toNat m)) (os : List Unit)
        (s : State (2147483648 : UInt32).toNat m),
      run step (init (2147483648 : UInt32).toNat m 2147483648) as = .ok (os, s) → Sound s := by
  intro hsound
  obtain ⟨as, os, s, hrun, hs⟩ := exists_run_not_sound 2147483648 (by decide)
  exact hs (hsound 1 as os s hrun)

/-- **A barrier for a count of `Notify` calls** is sound in every interleaving with any number of `Wait`
calls exactly if `state_` has room for twice the count. -/
theorem barrier_sound_iff (count : UInt32) :
    (∀ (m : ℕ) (as : List (Action count.toNat m)) (os : List Unit) (s : State count.toNat m),
        run step (init count.toNat m count) as = .ok (os, s) → Sound s) ↔
      count.toNat < 2 ^ 31 := by
  constructor
  · intro hsound
    by_contra hcount
    obtain ⟨as, os, s, hrun, hs⟩ := exists_run_not_sound count (by omega)
    exact hs (hsound 1 as os s hrun)
  · intro hcount m as os s hrun
    exact (run_invariant step_inv (inv_init rfl hcount) hrun).sound

end

end LearnNetlib.Barrier
