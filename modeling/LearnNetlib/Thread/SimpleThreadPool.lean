import LearnNetlib.Foundations.Runs
import Mathlib.Algebra.BigOperators.Group.Finset.Basic
import Mathlib.Algebra.Order.Group.Multiset
import Mathlib.Data.Fintype.Card
import Mathlib.Data.List.ReduceOption

/-!
# `thread::SimpleThreadPoolBase`

Workers that take tasks from a queue or are handed them while they sleep, as a transition system whose
steps are the sections under `mu_`.

* `scheduleTask`, `workerLoop`, `wake`, `exitPool` — the code of `base/thread/simple_thread_pool.h`;
* `Enabled`, `next`, `step` — who may move, and what comes of it;
* `State.tasks` — all tasks, wherever they are;
* `Inv`, **`step_inv`** — the invariant of all interleavings, those with tasks that schedule tasks
  included: no task is lost or doubled, and no worker sleeps in `waiters_` while tasks are pending.
-/

namespace LearnNetlib.SimpleThreadPool

open LearnNetlib.Runs

/-! ### The code -/

/-- Where a worker is in `WorkerLoop`: in front of `mu_`, in `waiter.cv.wait`, in `ExecuteTask`, or out
of it, its frame gone. -/
inductive Pc
  | locking
  | waiting
  | executing
  | exited
  deriving Repr, DecidableEq

/-- A `Waiter`; a task whose `fn` is empty is `none`. -/
structure Waiter (τ : Type) where
  ready : Bool
  task : Option τ

/-- The frame of `WorkerLoop`. -/
structure Worker (τ : Type) where
  pc : Pc
  task : Option τ
  waiter : Waiter τ

/-- Where the destructor is: not called, in `empty_.wait`, deleting the threads, or done. -/
inductive Destructor
  | notStarted
  | waiting
  | joining
  | returned
  deriving Repr, DecidableEq

/-- A pool of `n` threads; `waiters` has its back first.  `scheduled` and `executed` are the history,
and so is `deadWrites`: the waiters that were written to after their worker had left. -/
structure State (n : ℕ) (τ : Type) where
  pending : List (Option τ)
  waiters : List (Fin n)
  worker : Fin n → Worker τ
  exiting : Bool
  destructor : Destructor
  scheduled : List τ
  executed : List τ
  deadWrites : List (Fin n)

section

variable {n : ℕ} {τ : Type}

/-- The pool once it has been constructed. -/
def init : State n τ :=
  ⟨[], [], fun _ => ⟨.locking, none, false, none⟩, false, .notStarted, [], [], []⟩

/-- A change to the frame of one worker. -/
def State.modify (s : State n τ) (w : Fin n) (f : Worker τ → Worker τ) : State n τ :=
  { s with worker := Function.update s.worker w (f (s.worker w)) }

/-- `Schedule`. -/
def scheduleTask (fn : Option τ) (s : State n τ) : State n τ :=
  let s := { s with scheduled := s.scheduled ++ fn.toList }
  match s.waiters with
  | [] => { s with pending := s.pending ++ [fn] }
  | w :: ws =>
    let s := { s with
      waiters := ws
      deadWrites := if (s.worker w).pc = Pc.exited then s.deadWrites ++ [w] else s.deadWrites }
    s.modify w fun x => { x with waiter := ⟨true, fn⟩ }

/-- The first pending task that has a function; those in front of it are popped and skipped. -/
def popTask : List (Option τ) → Option (τ × List (Option τ))
  | [] => none
  | none :: pending => popTask pending
  | some t :: pending => some (t, pending)

/-- From the head of the loop of `WorkerLoop` to where `mu_` is given up. -/
def workerLoop (w : Fin n) (s : State n τ) : State n τ :=
  if s.exiting then s.modify w fun x => { x with pc := .exited }
  else
    match popTask s.pending with
    | none =>
      let s := { s with pending := [], waiters := w :: s.waiters }
      s.modify w fun x => { x with pc := .waiting, waiter := { x.waiter with ready := false } }
    | some (t, pending) =>
      let s := { s with pending := pending }
      s.modify w fun x => { x with pc := .executing, task := some t }

/-- From `waiter.cv.wait` on. -/
def wake (w : Fin n) (s : State n τ) : State n τ :=
  if (s.worker w).waiter.ready then
    let s := s.modify w fun x =>
      { x with task := x.waiter.task, waiter := { x.waiter with task := none } }
    if (s.worker w).task.isSome then s.modify w fun x => { x with pc := .executing }
    else workerLoop w s
  else s

/-- `ExecuteTask` returns. -/
def finish (w : Fin n) (s : State n τ) : State n τ :=
  let s := { s with executed := s.executed ++ (s.worker w).task.toList }
  s.modify w fun x => { x with pc := .locking, task := none }

/-- The destructor once `pending_` is empty. -/
def exitPool (s : State n τ) : State n τ :=
  { s with
    exiting := true
    destructor := .joining
    worker := fun w =>
      if w ∈ s.waiters then { s.worker w with waiter := ⟨true, none⟩ } else s.worker w
    deadWrites := s.deadWrites ++ s.waiters.filter fun w => (s.worker w).pc = Pc.exited }

/-- From the head of the loop of the destructor on. -/
def destructorLoop (s : State n τ) : State n τ :=
  if s.pending.isEmpty then exitPool s else { s with destructor := .waiting }

/-- The steps: `Schedule` from outside and from the task a worker executes, a worker taking `mu_` at the
head of its loop, its wake-ups, the end of its task, and the destructor. -/
inductive Action (n : ℕ) (τ : Type)
  | schedule (fn : Option τ)
  | scheduleFrom (w : Fin n) (fn : Option τ)
  | lock (w : Fin n)
  | wake (w : Fin n)
  | finish (w : Fin n)
  | destroy
  | wakeDestructor
  | join

/-- What may happen.  Only the tasks schedule once the destructor has started. -/
def Enabled (s : State n τ) : Action n τ → Prop
  | .schedule _ => s.destructor = .notStarted
  | .scheduleFrom w _ => (s.worker w).pc = .executing
  | .lock w => (s.worker w).pc = .locking
  | .wake w => (s.worker w).pc = .waiting
  | .finish w => (s.worker w).pc = .executing
  | .destroy => s.destructor = .notStarted
  | .wakeDestructor => s.destructor = .waiting
  | .join => s.destructor = .joining ∧ ∀ w, (s.worker w).pc = .exited

instance (s : State n τ) : ∀ a, Decidable (Enabled s a)
  | .schedule _ => inferInstanceAs (Decidable (s.destructor = .notStarted))
  | .scheduleFrom w _ => inferInstanceAs (Decidable ((s.worker w).pc = .executing))
  | .lock w => inferInstanceAs (Decidable ((s.worker w).pc = .locking))
  | .wake w => inferInstanceAs (Decidable ((s.worker w).pc = .waiting))
  | .finish w => inferInstanceAs (Decidable ((s.worker w).pc = .executing))
  | .destroy => inferInstanceAs (Decidable (s.destructor = .notStarted))
  | .wakeDestructor => inferInstanceAs (Decidable (s.destructor = .waiting))
  | .join =>
    inferInstanceAs (Decidable (s.destructor = .joining ∧ ∀ w, (s.worker w).pc = .exited))

/-- What comes of it. -/
def next (s : State n τ) : Action n τ → State n τ
  | .schedule fn => scheduleTask fn s
  | .scheduleFrom _ fn => scheduleTask fn s
  | .lock w => workerLoop w s
  | .wake w => LearnNetlib.SimpleThreadPool.wake w s
  | .finish w => LearnNetlib.SimpleThreadPool.finish w s
  | .destroy => destructorLoop s
  | .wakeDestructor => destructorLoop s
  | .join => { s with destructor := .returned }

/-- The transition system. -/
def step : State n τ → Action n τ → Except Unit (Unit × State n τ) := ofEnabled Enabled next

/-! ### Where the tasks are -/

/-- The tasks in `pending_`. -/
def State.pendingTasks (s : State n τ) : Multiset τ := s.pending.reduceOption

/-- Those in the slots of waiters. -/
def State.handed (s : State n τ) : Multiset τ := ∑ w, ((s.worker w).waiter.task.toList : Multiset τ)

/-- Those in the frames of workers. -/
def State.running (s : State n τ) : Multiset τ := ∑ w, ((s.worker w).task.toList : Multiset τ)

/-- What a worker holds. -/
def Worker.held (x : Worker τ) : Multiset τ := x.waiter.task.toList + x.task.toList

/-- All tasks, wherever they are. -/
def State.tasks (s : State n τ) : Multiset τ :=
  s.pendingTasks + ∑ w, (s.worker w).held + (s.executed : Multiset τ)

theorem State.tasks_eq (s : State n τ) :
    s.tasks = s.pendingTasks + s.handed + s.running + (s.executed : Multiset τ) := by
  simp only [tasks, Worker.held, Finset.sum_add_distrib, handed, running, add_assoc]

/-- A sum over a family of which one member has changed. -/
theorem sum_update {M ι α : Type*} [AddCommMonoid M] [Fintype ι] [DecidableEq ι] (f : α → M)
    (g : ι → α) (i : ι) (a : α) :
    ∑ j, f (Function.update g i a j) + f (g i) = ∑ j, f (g j) + f a := by
  have hrest : ∑ j ∈ Finset.univ.erase i, f (Function.update g i a j)
      = ∑ j ∈ Finset.univ.erase i, f (g j) :=
    Finset.sum_congr rfl fun j hj => by
      rw [Function.update_of_ne (Finset.ne_of_mem_erase hj)]
  rw [← Finset.add_sum_erase _ _ (Finset.mem_univ i), hrest, Function.update_self,
    ← Finset.add_sum_erase _ (fun j => f (g j)) (Finset.mem_univ i)]
  ac_rfl

theorem popTask_eq_none {pending : List (Option τ)} (h : popTask pending = none) :
    pending.reduceOption = [] := by
  induction pending with
  | nil => rfl
  | cons fn pending ih =>
    cases fn with
    | none => exact ih h
    | some t => cases h

theorem popTask_eq_some {pending rest : List (Option τ)} {t : τ}
    (h : popTask pending = some (t, rest)) : pending.reduceOption = t :: rest.reduceOption := by
  induction pending with
  | nil => cases h
  | cons fn pending ih =>
    cases fn with
    | none => exact ih h
    | some t' =>
      cases h
      rfl

/-! ### The invariant -/

/-- What holds of the frame of a worker: in `waiters_` only while it sleeps, with nothing in its slot. -/
structure Fits (s : State n τ) (w : Fin n) (x : Worker τ) : Prop where
  slot : w ∈ s.waiters → x.waiter.task = none
  asleep : w ∈ s.waiters → x.pc = .waiting ∨ x.pc = .exited
  unready : s.exiting = false → w ∈ s.waiters → x.waiter.ready = false
  handed : x.waiter.task ≠ none → x.pc = .waiting ∨ x.pc = .exited
  idle : x.pc ≠ .executing → x.task = none
  exited : x.pc = .exited → s.exiting = true
  joined : s.destructor = .returned → x.pc = .exited

/-- What holds in every state that can be reached. -/
structure Inv (s : State n τ) : Prop where
  nodup : s.waiters.Nodup
  exclusive : s.pending = [] ∨ s.waiters = []
  started : s.exiting = true ↔ s.destructor = .joining ∨ s.destructor = .returned
  fits : ∀ w, Fits s w (s.worker w)
  account : s.tasks = s.scheduled

theorem inv_init : Inv (init : State n τ) where
  nodup := List.nodup_nil
  exclusive := .inl rfl
  started := by simp [init]
  fits w := ⟨fun _ => rfl, fun h => absurd h List.not_mem_nil, fun _ _ => rfl, fun h => absurd rfl h,
    fun _ => rfl, nofun, nofun⟩
  account := by simp [State.tasks, State.pendingTasks, Worker.held, init]

variable {s s' : State n τ} {w : Fin n} {x : Worker τ}

/-- The frames after a step that changes one of them. -/
theorem Inv.fits_update (hinv : Inv s) (hworker : s'.worker = Function.update s.worker w x)
    (hexiting : s'.exiting = s.exiting) (hdestructor : s'.destructor = s.destructor)
    (hwaiters : ∀ v, v ≠ w → v ∈ s'.waiters → v ∈ s.waiters) (hx : Fits s' w x) (v : Fin n) :
    Fits s' v (s'.worker v) := by
  rw [hworker]
  by_cases hv : v = w
  · rw [hv, Function.update_self]
    exact hx
  · rw [Function.update_of_ne hv]
    obtain ⟨hslot, hasleep, hunready, hhanded, hidle, hexited, hjoined⟩ := hinv.fits v
    exact ⟨fun h => hslot (hwaiters v hv h), fun h => hasleep (hwaiters v hv h),
      fun he h => hunready (hexiting ▸ he) (hwaiters v hv h), hhanded, hidle,
      hexiting ▸ hexited, hdestructor ▸ hjoined⟩

/-- A frame that is given tasks. -/
theorem held_add (more : Multiset τ) (hworker : s'.worker = Function.update s.worker w x)
    (hx : x.held = (s.worker w).held + more) :
    ∑ v, (s'.worker v).held = ∑ v, (s.worker v).held + more := by
  have hsum := sum_update Worker.held s.worker w x
  rw [hx, ← add_assoc, add_right_comm] at hsum
  rw [hworker]
  exact add_right_cancel hsum

/-- A frame that gives tasks up. -/
theorem held_remove (gone : Multiset τ) (hworker : s'.worker = Function.update s.worker w x)
    (hx : x.held + gone = (s.worker w).held) :
    ∑ v, (s'.worker v).held + gone = ∑ v, (s.worker v).held := by
  have hsum := sum_update Worker.held s.worker w x
  rw [← hx, add_comm x.held, ← add_assoc] at hsum
  rw [hworker]
  exact add_right_cancel hsum

theorem scheduleTask_of_nil (fn : Option τ) (h : s.waiters = []) : scheduleTask fn s
    = { s with scheduled := s.scheduled ++ fn.toList, pending := s.pending ++ [fn] } := by
  rw [scheduleTask]
  simp only [h]

theorem scheduleTask_of_cons (fn : Option τ) {ws : List (Fin n)} (h : s.waiters = w :: ws) :
    scheduleTask fn s = { s with
      scheduled := s.scheduled ++ fn.toList
      waiters := ws
      deadWrites := if (s.worker w).pc = Pc.exited then s.deadWrites ++ [w] else s.deadWrites
      worker := Function.update s.worker w { s.worker w with waiter := ⟨true, fn⟩ } } := by
  rw [scheduleTask]
  simp only [h]
  rfl

/-- **`Schedule`.** -/
theorem scheduleTask_inv (hinv : Inv s) (fn : Option τ) : Inv (scheduleTask fn s) := by
  have haccount := hinv.account
  cases hwaiters : s.waiters with
  | nil =>
    rw [scheduleTask_of_nil fn hwaiters]
    refine ⟨hinv.nodup, .inr hwaiters, hinv.started, fun w => ?_, ?_⟩
    · obtain ⟨hslot, hasleep, hunready, hhanded, hidle, hexited, hjoined⟩ := hinv.fits w
      exact ⟨hslot, hasleep, hunready, hhanded, hidle, hexited, hjoined⟩
    · simp only [State.tasks, State.pendingTasks] at haccount ⊢
      rw [List.reduceOption_append, ← Multiset.coe_add, ← Multiset.coe_add, ← haccount,
        List.reduceOption_singleton]
      ac_rfl
  | cons w ws =>
    obtain ⟨hslot, hasleep, -, -, hidle, hexited, hjoined⟩ := hinv.fits w
    obtain ⟨hw, hws⟩ := List.nodup_cons.mp (hwaiters ▸ hinv.nodup)
    have hpending : s.pending = [] := hinv.exclusive.resolve_right (by simp [hwaiters])
    have hempty : (s.worker w).waiter.task = none := hslot (hwaiters ▸ List.mem_cons_self)
    rw [scheduleTask_of_cons fn hwaiters]
    refine ⟨hws, .inl hpending, hinv.started, hinv.fits_update rfl rfl rfl (fun v _ hv => ?_) ?_, ?_⟩
    · exact hwaiters ▸ List.mem_cons_of_mem _ hv
    · exact ⟨fun h => absurd h hw, fun h => absurd h hw, fun _ h => absurd h hw,
        fun _ => hasleep (hwaiters ▸ List.mem_cons_self), hidle, hexited, hjoined⟩
    · rw [State.tasks, held_add (s := s) fn.toList rfl
        (by simp [Worker.held, hempty, add_comm]),
        ← Multiset.coe_add, ← haccount, State.tasks]
      simp only [State.pendingTasks]
      ac_rfl

theorem workerLoop_of_exiting (w : Fin n) (h : s.exiting = true) : workerLoop w s
    = { s with worker := Function.update s.worker w { s.worker w with pc := .exited } } := by
  rw [workerLoop, if_pos h]
  rfl

theorem workerLoop_of_none (w : Fin n) (h : s.exiting = false) (hpop : popTask s.pending = none) :
    workerLoop w s = { s with
      pending := []
      waiters := w :: s.waiters
      worker := Function.update s.worker w { s.worker w with
        pc := .waiting
        waiter := { (s.worker w).waiter with ready := false } } } := by
  rw [workerLoop, if_neg (by rw [h]; decide), hpop]
  rfl

theorem workerLoop_of_some (w : Fin n) {t : τ} {rest : List (Option τ)} (h : s.exiting = false)
    (hpop : popTask s.pending = some (t, rest)) : workerLoop w s = { s with
      pending := rest
      worker := Function.update s.worker w { s.worker w with pc := .executing, task := some t } } := by
  rw [workerLoop, if_neg (by rw [h]; decide), hpop]
  rfl

/-- **From the head of the loop on**, for a worker that holds no task and does not sleep in `waiters_`. -/
theorem workerLoop_inv (hinv : Inv s) (hpc : (s.worker w).pc ≠ .executing)
    (hhere : (s.worker w).pc ≠ .exited) (hempty : (s.worker w).waiter.task = none)
    (hlist : s.exiting = false → w ∉ s.waiters) : Inv (workerLoop w s) := by
  have haccount := hinv.account
  obtain ⟨hslot, hasleep, hunready, hhanded, hidle, hexited, hjoined⟩ := hinv.fits w
  have hfree : (s.worker w).task = none := hidle hpc
  have hreturned : s.destructor ≠ .returned := fun h => hhere (hjoined h)
  cases hexiting : s.exiting with
  | true =>
    rw [workerLoop_of_exiting w hexiting]
    refine ⟨hinv.nodup, hinv.exclusive, hinv.started,
      hinv.fits_update rfl rfl rfl (fun v _ h => h) ?_, ?_⟩
    · exact ⟨hslot, fun _ => .inr rfl, fun h => absurd (hexiting.symm.trans h) (by decide),
        fun _ => .inr rfl, fun _ => hfree, fun _ => hexiting, fun h => absurd h hreturned⟩
    · rw [State.tasks, held_add (s := s) 0 rfl (by simp [Worker.held]), add_zero]
      exact haccount
  | false =>
    have hw := hlist hexiting
    cases hpop : popTask s.pending with
    | none =>
      rw [workerLoop_of_none w hexiting hpop]
      refine ⟨List.nodup_cons.mpr ⟨hw, hinv.nodup⟩, .inl rfl, hinv.started,
        hinv.fits_update rfl rfl rfl (fun v hv h => (List.mem_cons.mp h).resolve_left hv) ?_, ?_⟩
      · exact ⟨fun _ => hempty, fun _ => .inl rfl, fun _ _ => rfl, fun h => absurd hempty h,
          fun _ => hfree, nofun, fun h => absurd h hreturned⟩
      · rw [State.tasks, held_add (s := s) 0 rfl (by simp [Worker.held]), add_zero, ← haccount,
          State.tasks]
        simp only [State.pendingTasks, popTask_eq_none hpop]
        rfl
    | some r =>
      obtain ⟨t, rest⟩ := r
      have hwaiters : s.waiters = [] :=
        hinv.exclusive.resolve_left fun h => by rw [h] at hpop; cases hpop
      rw [workerLoop_of_some w hexiting hpop]
      refine ⟨hinv.nodup, .inr hwaiters, hinv.started,
        hinv.fits_update rfl rfl rfl (fun v _ h => h) ?_, ?_⟩
      · exact ⟨fun _ => hempty, fun h => absurd h hw, fun _ h => absurd h hw, fun h => absurd hempty h,
          fun h => absurd rfl h, nofun, fun h => absurd h hreturned⟩
      · rw [State.tasks, held_add (s := s) {t} rfl (by simp [Worker.held, hempty, hfree]), ← haccount,
          State.tasks]
        simp only [State.pendingTasks, popTask_eq_some hpop, ← Multiset.cons_coe,
          ← Multiset.singleton_add]
        ac_rfl

theorem wake_of_some {t : τ} (hready : (s.worker w).waiter.ready = true)
    (htask : (s.worker w).waiter.task = some t) : wake w s = { s with
      worker := Function.update s.worker w { s.worker w with
        pc := .executing
        task := some t
        waiter := { (s.worker w).waiter with task := none } } } := by
  rw [wake, if_pos hready]
  simp only [State.modify, Function.update_self, Function.update_idem, htask, Option.isSome_some,
    if_true]

theorem Worker.takeSlot_eq (htask : x.waiter.task = none) (hfree : x.task = none) :
    ({ x with task := x.waiter.task, waiter := { x.waiter with task := none } } : Worker τ) = x := by
  obtain ⟨pc, task, ready, slot⟩ := x
  cases htask
  cases hfree
  rfl

/-- Woken with nothing in its slot, a worker is at the head of its loop. -/
theorem wake_of_none (hready : (s.worker w).waiter.ready = true)
    (htask : (s.worker w).waiter.task = none) (hfree : (s.worker w).task = none) :
    wake w s = workerLoop w s := by
  have hsame : s.modify w (fun x =>
      { x with task := x.waiter.task, waiter := { x.waiter with task := none } }) = s := by
    rw [State.modify, Worker.takeSlot_eq htask hfree, Function.update_eq_self]
  rw [wake, if_pos hready, hsame, if_neg (by rw [hfree]; exact Bool.false_ne_true)]

/-- **A wake-up.** -/
theorem wake_inv (hinv : Inv s) (hpc : (s.worker w).pc = .waiting) : Inv (wake w s) := by
  obtain ⟨hslot, hasleep, hunready, hhanded, hidle, hexited, hjoined⟩ := hinv.fits w
  have hfree : (s.worker w).task = none := hidle (by rw [hpc]; decide)
  have hreturned : s.destructor ≠ .returned := fun h => by
    rw [hjoined h] at hpc
    cases hpc
  cases hready : (s.worker w).waiter.ready with
  | false =>
    rw [wake, if_neg (by rw [hready]; decide)]
    exact hinv
  | true =>
    have hlist : s.exiting = false → w ∉ s.waiters := fun h hw => by
      rw [hunready h hw] at hready
      cases hready
    cases htask : (s.worker w).waiter.task with
    | none =>
      rw [wake_of_none hready htask hfree]
      exact workerLoop_inv hinv (by rw [hpc]; decide) (by rw [hpc]; decide) htask hlist
    | some t =>
      have hw : w ∉ s.waiters := fun h => by
        rw [hslot h] at htask
        cases htask
      rw [wake_of_some hready htask]
      refine ⟨hinv.nodup, hinv.exclusive, hinv.started,
        hinv.fits_update rfl rfl rfl (fun v _ h => h) ?_, ?_⟩
      · exact ⟨fun _ => rfl, fun h => absurd h hw, fun _ h => absurd h hw, fun h => absurd rfl h,
          fun h => absurd rfl h, nofun, fun h => absurd h hreturned⟩
      · rw [State.tasks, held_add (s := s) 0 rfl (by simp [Worker.held, htask, hfree]), add_zero]
        exact hinv.account

/-- **The end of a task.** -/
theorem finish_inv (hinv : Inv s) (hpc : (s.worker w).pc = .executing) : Inv (finish w s) := by
  obtain ⟨hslot, hasleep, hunready, hhanded, hidle, hexited, hjoined⟩ := hinv.fits w
  have hw : w ∉ s.waiters := fun h => by
    rcases hasleep h with h | h <;> rw [h] at hpc <;> cases hpc
  have hempty : (s.worker w).waiter.task = none := by
    by_contra h
    rcases hhanded h with h | h <;> rw [h] at hpc <;> cases hpc
  have hreturned : s.destructor ≠ .returned := fun h => by
    rw [hjoined h] at hpc
    cases hpc
  refine ⟨hinv.nodup, hinv.exclusive, hinv.started,
    hinv.fits_update rfl rfl rfl (fun v _ h => h) ?_, ?_⟩
  · exact ⟨fun h => absurd h hw, fun h => absurd h hw, fun _ h => absurd h hw,
      fun h => absurd hempty h, fun _ => rfl, nofun, fun h => absurd h hreturned⟩
  · have hheld : ∑ v, ((finish w s).worker v).held + ((s.worker w).task.toList : Multiset τ)
        = ∑ v, (s.worker v).held := held_remove _ rfl (by simp [Worker.held])
    have haccount := hinv.account
    rw [State.tasks, ← hheld] at haccount
    change s.pendingTasks + _ + ((s.executed ++ (s.worker w).task.toList : List τ) : Multiset τ)
      = s.scheduled
    rw [← haccount, ← Multiset.coe_add]
    ac_rfl

/-- **The destructor**, before it has let the workers go. -/
theorem destructorLoop_inv (hinv : Inv s)
    (hpc : s.destructor = .notStarted ∨ s.destructor = .waiting) : Inv (destructorLoop s) := by
  have hexiting : s.exiting = false := by
    rw [← Bool.not_eq_true, hinv.started]
    rcases hpc with h | h <;> rw [h] <;> decide
  rw [destructorLoop]
  split_ifs with hpending
  · refine ⟨hinv.nodup, hinv.exclusive, by simp [exitPool], fun w => ?_, ?_⟩
    · obtain ⟨hslot, hasleep, hunready, hhanded, hidle, hexited, hjoined⟩ := hinv.fits w
      dsimp only [exitPool]
      split_ifs with hw
      · exact ⟨fun _ => rfl, fun _ => hasleep hw, nofun, fun h => absurd rfl h, hidle, fun _ => rfl,
          nofun⟩
      · exact ⟨fun h => absurd h hw, fun h => absurd h hw, nofun, hhanded, hidle, fun _ => rfl, nofun⟩
    · have hheld : ∀ w, ((exitPool s).worker w).held = (s.worker w).held := fun w => by
        dsimp only [exitPool]
        split_ifs with hw
        · rw [Worker.held, Worker.held, (hinv.fits w).slot hw]
        · rfl
      rw [State.tasks, Finset.sum_congr rfl fun w _ => hheld w]
      exact hinv.account
  · refine ⟨hinv.nodup, hinv.exclusive, by simp [hexiting], fun w => ?_, hinv.account⟩
    obtain ⟨hslot, hasleep, hunready, hhanded, hidle, hexited, hjoined⟩ := hinv.fits w
    exact ⟨hslot, hasleep, hunready, hhanded, hidle, hexited, nofun⟩

/-- **Every step** keeps the invariant. -/
theorem step_inv (s : State n τ) (a : Action n τ) (o : Unit) (s' : State n τ) (hinv : Inv s)
    (hstep : step s a = .ok (o, s')) : Inv s' := by
  obtain ⟨henabled, rfl⟩ := ofEnabled_eq_ok.mp hstep
  cases a with
  | schedule fn => exact scheduleTask_inv hinv fn
  | scheduleFrom w fn => exact scheduleTask_inv hinv fn
  | lock w =>
    have hpc : (s.worker w).pc = .locking := henabled
    have hempty : (s.worker w).waiter.task = none := by
      by_contra h
      rcases (hinv.fits w).handed h with h | h <;> rw [h] at hpc <;> cases hpc
    have hw : w ∉ s.waiters := fun h => by
      rcases (hinv.fits w).asleep h with h | h <;> rw [h] at hpc <;> cases hpc
    exact workerLoop_inv hinv (by rw [hpc]; decide) (by rw [hpc]; decide) hempty fun _ => hw
  | wake w => exact wake_inv hinv henabled
  | finish w => exact finish_inv hinv henabled
  | destroy => exact destructorLoop_inv hinv (.inl henabled)
  | wakeDestructor => exact destructorLoop_inv hinv (.inr henabled)
  | join =>
    obtain ⟨hjoining, hall⟩ : s.destructor = .joining ∧ ∀ w, (s.worker w).pc = .exited := henabled
    refine ⟨hinv.nodup, hinv.exclusive, ?_, fun w => ?_, hinv.account⟩
    · simp [next, hinv.started.mpr (.inl hjoining)]
    · obtain ⟨hslot, hasleep, hunready, hhanded, hidle, hexited, hjoined⟩ := hinv.fits w
      exact ⟨hslot, hasleep, hunready, hhanded, hidle, hexited, fun _ => hall w⟩

end

end LearnNetlib.SimpleThreadPool
