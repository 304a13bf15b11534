import LearnNetlib.Thread.SimpleThreadPool

/-!
# Shutting a `SimpleThreadPoolBase` down

* `Safe` — a `Schedule` that finds its worker still there;
* `Sound`, `Damaged` — what safe steps keep, and what an unsafe one leaves behind for good;
* **`simpleThreadPool_accounts`** — without tasks that schedule: every task is in one place, and none is
  left when the workers have left;
* **`simpleThreadPool_drains_iff`** — with them: all tasks are executed exactly if every step is safe.
-/

namespace LearnNetlib.SimpleThreadPool

open LearnNetlib.Runs

section

variable {n : ℕ} {τ : Type}

/-- A `Schedule` once `exiting_` is set has to find a waiter whose worker still sleeps; only a function
that is empty may go to `pending_`. -/
def ScheduleSafe (s : State n τ) (fn : Option τ) : Prop :=
  s.exiting = true →
    match s.waiters with
    | [] => fn = none
    | w :: _ => (s.worker w).pc = .waiting

/-- The other steps are safe. -/
def Safe (s : State n τ) : Action n τ → Prop
  | .schedule fn => ScheduleSafe s fn
  | .scheduleFrom _ fn => ScheduleSafe s fn
  | .lock _ => True
  | .wake _ => True
  | .finish _ => True
  | .destroy => True
  | .wakeDestructor => True
  | .join => True

/-- Handed tasks are in the slots of workers that will take them, none is pending when the workers
leave, and nothing has been written to a worker that has left. -/
structure Sound (s : State n τ) : Prop where
  handed : ∀ w, (s.worker w).waiter.task ≠ none → (s.worker w).pc = .waiting
  drained : s.exiting = true → s.pending.reduceOption = []
  alive : s.deadWrites = []

/-- A worker that has left has been written to, or a task is pending that none will take. -/
def Damaged (s : State n τ) : Prop :=
  s.deadWrites ≠ [] ∨ (s.exiting = true ∧ s.pending.reduceOption ≠ [])

variable {s s' : State n τ} {w : Fin n}

theorem sound_init : Sound (init : State n τ) := ⟨fun _ h => absurd rfl h, nofun, rfl⟩

/-! ### Safe steps -/

/-- The slots after a step that changes one frame. -/
theorem handed_update {g : Fin n → Worker τ} {x : Worker τ}
    (hg : ∀ v, (g v).waiter.task ≠ none → (g v).pc = .waiting)
    (hx : x.waiter.task ≠ none → x.pc = .waiting) (v : Fin n) :
    (Function.update g w x v).waiter.task ≠ none → (Function.update g w x v).pc = .waiting :=
  (Function.forall_update_iff g (p := fun _ x => x.waiter.task ≠ none → x.pc = .waiting)).mpr
    ⟨hx, fun v _ => hg v⟩ v

theorem scheduleTask_sound (hinv : Inv s) (hsound : Sound s) {fn : Option τ}
    (hsafe : ScheduleSafe s fn) : Sound (scheduleTask fn s) := by
  cases hwaiters : s.waiters with
  | nil =>
    rw [scheduleTask_of_nil fn hwaiters]
    refine ⟨hsound.handed, fun h => ?_, hsound.alive⟩
    have hfn : fn = none := by
      have := hsafe h
      rwa [hwaiters] at this
    rw [List.reduceOption_append, hsound.drained h, hfn]
    rfl
  | cons w ws =>
    have hpc : (s.worker w).pc = .waiting := by
      rcases (hinv.fits w).asleep (hwaiters ▸ List.mem_cons_self) with hpc | hpc
      · exact hpc
      · have := hsafe ((hinv.fits w).exited hpc)
        rwa [hwaiters] at this
    rw [scheduleTask_of_cons fn hwaiters]
    refine ⟨handed_update hsound.handed fun _ => hpc, hsound.drained, ?_⟩
    rw [if_neg (by rw [hpc]; decide)]
    exact hsound.alive

theorem workerLoop_sound (hsound : Sound s) (hempty : (s.worker w).waiter.task = none) :
    Sound (workerLoop w s) := by
  cases hexiting : s.exiting with
  | true =>
    rw [workerLoop_of_exiting w hexiting]
    exact ⟨handed_update hsound.handed fun h => absurd hempty h, hsound.drained, hsound.alive⟩
  | false =>
    have hgoing : s.exiting ≠ true := by
      rw [hexiting]
      decide
    cases hpop : popTask s.pending with
    | none =>
      rw [workerLoop_of_none w hexiting hpop]
      exact ⟨handed_update hsound.handed fun h => absurd hempty h, fun h => absurd h hgoing,
        hsound.alive⟩
    | some r =>
      rw [workerLoop_of_some w hexiting hpop]
      exact ⟨handed_update hsound.handed fun h => absurd hempty h, fun h => absurd h hgoing,
        hsound.alive⟩

theorem wake_sound (hinv : Inv s) (hsound : Sound s) (hpc : (s.worker w).pc = .waiting) :
    Sound (wake w s) := by
  have hfree : (s.worker w).task = none := (hinv.fits w).idle (by rw [hpc]; decide)
  cases hready : (s.worker w).waiter.ready with
  | false =>
    rw [wake, if_neg (by rw [hready]; decide)]
    exact hsound
  | true =>
    cases htask : (s.worker w).waiter.task with
    | none =>
      rw [wake_of_none hready htask hfree]
      exact workerLoop_sound hsound htask
    | some t =>
      rw [wake_of_some hready htask]
      exact ⟨handed_update hsound.handed fun h => absurd rfl h, hsound.drained, hsound.alive⟩

theorem destructorLoop_sound (hinv : Inv s) (hsound : Sound s)
    (hpc : s.destructor = .notStarted ∨ s.destructor = .waiting) : Sound (destructorLoop s) := by
  have hexiting : s.exiting ≠ true := by
    rw [ne_eq, hinv.started]
    rcases hpc with h | h <;> rw [h] <;> decide
  rw [destructorLoop]
  split_ifs with hpending
  · refine ⟨fun w => ?_, fun _ => ?_, ?_⟩
    · dsimp only [exitPool]
      split_ifs with hw
      · exact fun h => absurd rfl h
      · exact hsound.handed w
    · rw [exitPool, List.isEmpty_iff.mp hpending]
      rfl
    · have hnone : s.waiters.filter (fun w => (s.worker w).pc = Pc.exited) = [] :=
        List.filter_eq_nil_iff.mpr fun w _ h =>
          hexiting ((hinv.fits w).exited (of_decide_eq_true h))
      rw [exitPool, hnone, List.append_nil]
      exact hsound.alive
  · exact ⟨hsound.handed, hsound.drained, hsound.alive⟩

/-- **Every safe step** keeps a pool sound. -/
theorem step_sound (s : State n τ) (a : Action n τ) (o : Unit) (s' : State n τ) (hinv : Inv s)
    (hsound : Sound s) (hstep : step s a = .ok (o, s')) (hsafe : Safe s a) : Sound s' := by
  obtain ⟨henabled, rfl⟩ := ofEnabled_eq_ok.mp hstep
  cases a with
  | schedule fn => exact scheduleTask_sound hinv hsound hsafe
  | scheduleFrom w fn => exact scheduleTask_sound hinv hsound hsafe
  | lock w =>
    have hpc : (s.worker w).pc = .locking := henabled
    refine workerLoop_sound hsound ?_
    by_contra h
    rw [hsound.handed w h] at hpc
    cases hpc
  | wake w => exact wake_sound hinv hsound henabled
  | finish w =>
    have hpc : (s.worker w).pc = .executing := henabled
    refine ⟨handed_update hsound.handed fun h => ?_, hsound.drained, hsound.alive⟩
    rw [hsound.handed w h] at hpc
    cases hpc
  | destroy => exact destructorLoop_sound hinv hsound (.inl henabled)
  | wakeDestructor => exact destructorLoop_sound hinv hsound (.inr henabled)
  | join => exact ⟨hsound.handed, hsound.drained, hsound.alive⟩

/-! ### Unsafe steps -/

theorem scheduleTask_damaged (hinv : Inv s) {fn : Option τ} (hrisk : ¬ ScheduleSafe s fn) :
    Damaged (scheduleTask fn s) := by
  rw [ScheduleSafe, Classical.not_imp] at hrisk
  obtain ⟨hexiting, hrisk⟩ := hrisk
  cases hwaiters : s.waiters with
  | nil =>
    rw [hwaiters] at hrisk
    rw [scheduleTask_of_nil fn hwaiters]
    refine .inr ⟨hexiting, ?_⟩
    obtain ⟨t, rfl⟩ := Option.ne_none_iff_exists'.mp hrisk
    simp [List.reduceOption_append, List.reduceOption_cons_of_some]
  | cons w ws =>
    rw [hwaiters] at hrisk
    have hpc : (s.worker w).pc = .exited :=
      ((hinv.fits w).asleep (hwaiters ▸ List.mem_cons_self)).resolve_left hrisk
    rw [scheduleTask_of_cons fn hwaiters]
    refine .inl ?_
    rw [if_pos hpc]
    simp

theorem workerLoop_grows (w : Fin n) (s : State n τ) :
    s.deadWrites <+: (workerLoop w s).deadWrites ∧
      (s.exiting = true → (workerLoop w s).exiting = true ∧ s.pending <+: (workerLoop w s).pending) := by
  cases hexiting : s.exiting with
  | true =>
    rw [workerLoop_of_exiting w hexiting]
    exact ⟨List.prefix_rfl, fun _ => ⟨hexiting, List.prefix_rfl⟩⟩
  | false =>
    cases hpop : popTask s.pending with
    | none =>
      rw [workerLoop_of_none w hexiting hpop]
      exact ⟨List.prefix_rfl, nofun⟩
    | some r =>
      rw [workerLoop_of_some w hexiting hpop]
      exact ⟨List.prefix_rfl, nofun⟩

theorem scheduleTask_grows (fn : Option τ) (s : State n τ) :
    s.deadWrites <+: (scheduleTask fn s).deadWrites ∧
      (s.exiting = true →
        (scheduleTask fn s).exiting = true ∧ s.pending <+: (scheduleTask fn s).pending) := by
  cases hwaiters : s.waiters with
  | nil =>
    rw [scheduleTask_of_nil fn hwaiters]
    exact ⟨List.prefix_rfl, fun h => ⟨h, List.prefix_append _ _⟩⟩
  | cons w ws =>
    rw [scheduleTask_of_cons fn hwaiters]
    refine ⟨?_, fun h => ⟨h, List.prefix_rfl⟩⟩
    dsimp only
    split_ifs
    · exact List.prefix_append _ _
    · exact List.prefix_rfl

theorem destructorLoop_grows (hinv : Inv s)
    (hpc : s.destructor = .notStarted ∨ s.destructor = .waiting) :
    s.deadWrites <+: (destructorLoop s).deadWrites ∧
      (s.exiting = true →
        (destructorLoop s).exiting = true ∧ s.pending <+: (destructorLoop s).pending) := by
  have hexiting : s.exiting ≠ true := by
    rw [ne_eq, hinv.started]
    rcases hpc with h | h <;> rw [h] <;> decide
  refine ⟨?_, fun h => absurd h hexiting⟩
  rw [destructorLoop]
  split_ifs
  · exact List.prefix_append _ _
  · exact List.prefix_rfl

/-- **What no step takes back**: the writes to workers that have left, and once `exiting_` is set what is
pending. -/
theorem step_grows (hinv : Inv s) {a : Action n τ} {o : Unit} (hstep : step s a = .ok (o, s')) :
    s.deadWrites <+: s'.deadWrites ∧
      (s.exiting = true → s'.exiting = true ∧ s.pending <+: s'.pending) := by
  obtain ⟨henabled, rfl⟩ := ofEnabled_eq_ok.mp hstep
  cases a with
  | schedule fn => exact scheduleTask_grows fn s
  | scheduleFrom w fn => exact scheduleTask_grows fn s
  | lock w => exact workerLoop_grows w s
  | wake w =>
    have hpc : (s.worker w).pc = .waiting := henabled
    have hfree : (s.worker w).task = none := (hinv.fits w).idle (by rw [hpc]; decide)
    rw [next]
    cases hready : (s.worker w).waiter.ready with
    | false =>
      rw [SimpleThreadPool.wake, if_neg (by rw [hready]; decide)]
      exact ⟨List.prefix_rfl, fun h => ⟨h, List.prefix_rfl⟩⟩
    | true =>
      cases htask : (s.worker w).waiter.task with
      | none =>
        rw [wake_of_none hready htask hfree]
        exact workerLoop_grows w s
      | some t =>
        rw [wake_of_some hready htask]
        exact ⟨List.prefix_rfl, fun h => ⟨h, List.prefix_rfl⟩⟩
  | finish w => exact ⟨List.prefix_rfl, fun h => ⟨h, List.prefix_rfl⟩⟩
  | destroy => exact destructorLoop_grows hinv (.inl henabled)
  | wakeDestructor => exact destructorLoop_grows hinv (.inr henabled)
  | join => exact ⟨List.prefix_rfl, fun h => ⟨h, List.prefix_rfl⟩⟩

/-- **Damage stays.** -/
theorem step_damaged (s : State n τ) (a : Action n τ) (o : Unit) (s' : State n τ) (hinv : Inv s)
    (hdamaged : Damaged s) (hstep : step s a = .ok (o, s')) : Damaged s' := by
  obtain ⟨hdead, hpending⟩ := step_grows hinv hstep
  rcases hdamaged with hwrites | ⟨hexiting, hleft⟩
  · exact .inl fun h => hwrites (List.prefix_nil.mp (h ▸ hdead))
  · obtain ⟨hexiting', more, hmore⟩ := hpending hexiting
    refine .inr ⟨hexiting', ?_⟩
    rw [← hmore, List.reduceOption_append]
    exact List.append_ne_nil_of_left_ne_nil hleft _

/-- **An unsafe step** damages the pool. -/
theorem step_damages (s : State n τ) (a : Action n τ) (o : Unit) (s' : State n τ) (hinv : Inv s)
    (hstep : step s a = .ok (o, s')) (hrisk : ¬ Safe s a) : Damaged s' := by
  obtain ⟨-, rfl⟩ := ofEnabled_eq_ok.mp hstep
  cases a with
  | schedule fn => exact scheduleTask_damaged hinv hrisk
  | scheduleFrom w fn => exact scheduleTask_damaged hinv hrisk
  | lock w => exact absurd trivial hrisk
  | wake w => exact absurd trivial hrisk
  | finish w => exact absurd trivial hrisk
  | destroy => exact absurd trivial hrisk
  | wakeDestructor => exact absurd trivial hrisk
  | join => exact absurd trivial hrisk

/-! ### The workers have left -/

/-- What a sound pool has executed when its workers have left. -/
theorem executed_of_sound (hinv : Inv s) (hsound : Sound s) (hexiting : s.exiting = true)
    (hleft : ∀ w, (s.worker w).pc = .exited) : (s.executed : Multiset τ) = s.scheduled := by
  have hheld : ∀ w, (s.worker w).held = 0 := fun w => by
    have hslot : (s.worker w).waiter.task = none := by
      by_contra h
      have hpc := hsound.handed w h
      rw [hleft w] at hpc
      cases hpc
    have hfree : (s.worker w).task = none := (hinv.fits w).idle (by rw [hleft w]; decide)
    rw [Worker.held, hslot, hfree]
    rfl
  rw [← hinv.account, State.tasks, State.pendingTasks, hsound.drained hexiting,
    Finset.sum_congr rfl fun w _ => hheld w]
  simp

/-- What a damaged one has not. -/
theorem not_executed_of_damaged (hinv : Inv s) (hdamaged : Damaged s) :
    ¬ (s.deadWrites = [] ∧ (s.executed : Multiset τ) = s.scheduled) := by
  rintro ⟨hdead, hexecuted⟩
  rcases hdamaged with hwrites | ⟨-, hpending⟩
  · exact hwrites hdead
  · have haccount := hinv.account
    rw [← hexecuted, State.tasks] at haccount
    have hnone : s.pendingTasks + ∑ w, (s.worker w).held = 0 := add_eq_right.mp haccount
    have hzero : s.pendingTasks = 0 := 
      Multiset.le_zero.mp (hnone ▸ Multiset.le_add_right _ _)
    exact hpending (Multiset.coe_eq_zero _ |>.mp hzero)

/-- **A run** ends sound if all its steps are safe, and damaged if not. -/
theorem run_sound_iff {actions : List (Action n τ)} {os : List Unit}
    (hrun : run step init actions = .ok (os, s)) :
    Inv s ∧ ((∀ p ∈ steps step init actions, Safe p.1 p.2) → Sound s) ∧
      ((¬ ∀ p ∈ steps step init actions, Safe p.1 p.2) → Damaged s) := by
  obtain ⟨hsound, hdamaged⟩ := run_sound_or_damaged step_inv step_sound step_damages step_damaged
    inv_init hrun
  exact ⟨run_invariant step_inv inv_init hrun, hsound sound_init, fun h => hdamaged (.inr h)⟩

/-- Steps of tasks that schedule. -/
def Action.FromTask : Action n τ → Prop
  | .scheduleFrom _ _ => True
  | _ => False

/-- Without such steps every step is safe. -/
theorem steps_safe {s : State n τ} (hinv : Inv s) (actions : List (Action n τ))
    (hplain : ∀ a ∈ actions, ¬ a.FromTask) {os : List Unit}
    (hrun : run step s actions = .ok (os, s')) : ∀ p ∈ steps step s actions, Safe p.1 p.2 := by
  induction actions generalizing s os with
  | nil => simp [steps, visits]
  | cons a actions ih =>
    obtain ⟨o, s₁, os₁, hstep, hrest, -⟩ := run_cons_eq_ok hrun
    obtain ⟨ha, hactions⟩ := List.forall_mem_cons.mp hplain
    rw [steps, visits, List.forall_mem_append, hstep]
    refine ⟨fun p hp => ?_, ih (step_inv s a o s₁ hinv hstep) hactions hrest⟩
    rw [List.mem_singleton.mp hp]
    cases a with
    | schedule fn =>
      obtain ⟨henabled, -⟩ := ofEnabled_eq_ok.mp hstep
      have hpc : s.destructor = .notStarted := henabled
      intro hexiting
      rcases hinv.started.mp hexiting with h | h <;> rw [h] at hpc <;> cases hpc
    | scheduleFrom w fn => exact absurd trivial ha
    | lock w => trivial
    | wake w => trivial
    | finish w => trivial
    | destroy => trivial
    | wakeDestructor => trivial
    | join => trivial

end

/-- **No task is lost**: in every interleaving in which all tasks are scheduled from outside before the
destructor starts, at all times every scheduled task is in `pending_`, in the slot of a waiter that has
been popped, in the frame of a worker or executed, and in one of these only (the sum counts how often
it is in each); `pending_` and `waiters_` are never both in use; no waiter is in `waiters_` twice, so
that it does not outgrow the number of threads; and when all workers have left every task has been
executed once. -/
theorem simpleThreadPool_accounts {n : ℕ} (hn : 0 < n) {τ : Type} (actions : List (Action n τ))
    (hplain : ∀ a ∈ actions, ¬ a.FromTask) (s : State n τ) (os : List Unit)
    (hrun : run step init actions = .ok (os, s)) :
    s.pendingTasks + s.handed + s.running + (s.executed : Multiset τ) = s.scheduled ∧
      (∀ w ∈ s.waiters, (s.worker w).waiter.task = none) ∧
      (s.pending = [] ∨ s.waiters = []) ∧ s.waiters.Nodup ∧ s.waiters.length ≤ n ∧
      ((∀ w, (s.worker w).pc = .exited) → (s.executed : Multiset τ) = s.scheduled) := by
  obtain ⟨hinv, hsound, -⟩ := run_sound_iff hrun
  refine ⟨s.tasks_eq ▸ hinv.account, fun w => (hinv.fits w).slot, hinv.exclusive, hinv.nodup, ?_,
    fun hleft => ?_⟩
  · exact (List.Nodup.length_le_card hinv.nodup).trans_eq (Fintype.card_fin n)
  · exact executed_of_sound hinv (hsound (steps_safe inv_init actions hplain hrun))
      ((hinv.fits ⟨0, hn⟩).exited (hleft _)) hleft

/-- One worker; one task from the queue and one that is handed over. -/
def handover : List (Action 1 ℕ) :=
  [.schedule (some 7), .lock 0, .finish 0, .lock 0, .schedule (some 8), .destroy, .wake 0, .finish 0,
    .lock 0, .join]

theorem simpleThreadPool_accounts_handover :
    ∃ (s : State 1 ℕ) (os : List Unit), run step init handover = .ok (os, s) ∧
      s.pendingTasks + s.handed + s.running + (s.executed : Multiset ℕ) = s.scheduled ∧
      (∀ w ∈ s.waiters, (s.worker w).waiter.task = none) ∧
      (s.pending = [] ∨ s.waiters = []) ∧ s.waiters.Nodup ∧ s.waiters.length ≤ 1 ∧
      ((∀ w, (s.worker w).pc = .exited) → (s.executed : Multiset ℕ) = s.scheduled) :=
  ⟨_, _, rfl, simpleThreadPool_accounts (by decide) handover (by simp [handover, Action.FromTask]) _ _
    rfl⟩

/-- **When tasks may schedule tasks**: in every interleaving, if every `Schedule` made once `exiting_` is
set finds its worker still asleep, no worker that has left is written to, and if the destructor has
returned every task has been executed once; and where the destructor has returned this is so only if
every `Schedule` was so. -/
theorem simpleThreadPool_drains_iff {n : ℕ} {τ : Type} (actions : List (Action n τ)) (s : State n τ)
    (os : List Unit) (hrun : run step init actions = .ok (os, s)) :
    ((∀ p ∈ steps step init actions, Safe p.1 p.2) → s.deadWrites = [] ∧
        (s.destructor = .returned → (s.executed : Multiset τ) = s.scheduled)) ∧
      (s.destructor = .returned →
        ((s.deadWrites = [] ∧ (s.executed : Multiset τ) = s.scheduled) ↔
          ∀ p ∈ steps step init actions, Safe p.1 p.2)) := by
  obtain ⟨hinv, hsound, hdamaged⟩ := run_sound_iff hrun
  have hforward : (∀ p ∈ steps step init actions, Safe p.1 p.2) → s.deadWrites = [] ∧
      (s.destructor = .returned → (s.executed : Multiset τ) = s.scheduled) := fun hsafe =>
    ⟨(hsound hsafe).alive, fun hreturned => executed_of_sound hinv (hsound hsafe)
      (hinv.started.mpr (.inr hreturned)) fun w => (hinv.fits w).joined hreturned⟩
  refine ⟨hforward, fun hreturned => ⟨fun hdone => ?_, fun hsafe => ?_⟩⟩
  · by_contra hrisk
    exact not_executed_of_damaged hinv (hdamaged hrisk) hdone
  · obtain ⟨halive, hexecuted⟩ := hforward hsafe
    exact ⟨halive, hexecuted hreturned⟩

/-- A task that schedules another one before the destructor starts. -/
def earlySchedule : List (Action 1 ℕ) :=
  [.schedule (some 7), .lock 0, .scheduleFrom 0 (some 8), .finish 0, .lock 0, .finish 0, .destroy,
    .lock 0, .join]

theorem simpleThreadPool_drains_iff_early :
    ∃ (s : State 1 ℕ) (os : List Unit), run step init earlySchedule = .ok (os, s) ∧
      ((∀ p ∈ steps step init earlySchedule, Safe p.1 p.2) → s.deadWrites = [] ∧
        (s.destructor = .returned → (s.executed : Multiset ℕ) = s.scheduled)) ∧
      (s.destructor = .returned →
        ((s.deadWrites = [] ∧ (s.executed : Multiset ℕ) = s.scheduled) ↔
          ∀ p ∈ steps step init earlySchedule, Safe p.1 p.2)) :=
  ⟨_, _, rfl, simpleThreadPool_drains_iff earlySchedule _ _ rfl⟩

/-- A task that schedules another one when `exiting_` is set. -/
def lateSchedule : List (Action 1 ℕ) :=
  [.schedule (some 7), .lock 0, .destroy, .scheduleFrom 0 (some 8), .finish 0, .lock 0, .join]

/-- The same when another worker has been let go in between. -/
def lateHandover : List (Action 2 ℕ) :=
  [.schedule (some 7), .lock 0, .lock 1, .destroy, .wake 1, .scheduleFrom 0 (some 8), .finish 0, .lock 0,
    .join]

/-- Both destructors return without the second task: in `pending_` it stays, and in the slot of a worker
that has left, which is written to. -/
theorem simpleThreadPool_drops :
    (∃ (s : State 1 ℕ) (os : List Unit), run step init lateSchedule = .ok (os, s) ∧
      s.destructor = .returned ∧ s.scheduled = [7, 8] ∧ s.pending = [some 8] ∧
      (s.executed : Multiset ℕ) ≠ s.scheduled) ∧
    ∃ (s : State 2 ℕ) (os : List Unit), run step init lateHandover = .ok (os, s) ∧
      s.destructor = .returned ∧ s.deadWrites = [1] ∧ (s.executed : Multiset ℕ) ≠ s.scheduled :=
  ⟨⟨_, _, rfl, rfl, rfl, rfl, by decide⟩, _, _, rfl, rfl, rfl, by decide⟩

end LearnNetlib.SimpleThreadPool
