import Mathlib.Data.List.Basic
import Mathlib.Tactic.Common

/-!
# Runs of a state machine, and refinement between two of them

A component is a step function: from a state and an operation it either stops or gives what the
caller sees and the next state.  A specification is a step function that never stops.

* `run` / `specRun` — whole sequences of operations;
* `run_append` — runs compose;
* `run_invariant` — an invariant every step keeps holds at the end of every run;
* `visits`, `run_guarded` — the same when a step keeps it only if all it visits is good;
* `reached_iff_guarded`, `alwaysEnds_iff_guarded` — when exactly a run reaches only states of an invariant,
  and when it ends well all the time;
* `ofEnabled`, `run_sound_or_damaged` — transition systems, and damage that stays;
* `Meets`, `run_agree_iff` — when two machines show the same throughout;
* **`run_refines`** — the simulation rule: if related states answer every permitted operation alike
  and stay related, then every permitted run of the component shows exactly what the specification
  shows, and never stops early.
-/

namespace LearnNetlib.Runs

variable {σ τ ι ω ε : Type*}

/-- Perform a sequence of operations, collecting what the caller sees. -/
def run (step : σ → ι → Except ε (ω × σ)) : σ → List ι → Except ε (List ω × σ)
  | s, [] => .ok ([], s)
  | s, i :: is =>
    match step s i with
    | .error e => .error e
    | .ok (o, s') => (run step s' is).map fun r => (o :: r.1, r.2)

/-- What `visit` sees along a run. -/
def visits {α : Type*} (visit : σ → ι → List α) (step : σ → ι → Except ε (ω × σ)) :
    σ → List ι → List α
  | _, [] => []
  | s, i :: is =>
    visit s i ++
      match step s i with
      | .error _ => []
      | .ok (_, s') => visits visit step s' is

/-- The same for a specification. -/
def specRun (spec : τ → ι → ω × τ) : τ → List ι → List ω × τ
  | t, [] => ([], t)
  | t, i :: is => ((spec t i).1 :: (specRun spec (spec t i).2 is).1, (specRun spec (spec t i).2 is).2)

/-- Every operation of the sequence is permitted in the state the specification has reached. -/
def Permitted (permitted : τ → ι → Prop) (spec : τ → ι → ω × τ) : τ → List ι → Prop
  | _, [] => True
  | t, i :: is => permitted t i ∧ Permitted permitted spec (spec t i).2 is

theorem permitted_true (spec : τ → ι → ω × τ) (t : τ) (is : List ι) :
    Permitted (fun _ _ => True) spec t is := by
  induction is generalizing t with
  | nil => trivial
  | cons i is ih => exact ⟨trivial, ih _⟩

/-- The specification after two sequences of operations. -/
theorem specRun_append_snd (spec : τ → ι → ω × τ) (t : τ) (is js : List ι) :
    (specRun spec t (is ++ js)).2 = (specRun spec (specRun spec t is).2 js).2 := by
  induction is generalizing t with
  | nil => rfl
  | cons i is ih => exact ih _

/-- What is permitted is permitted from its beginning on. -/
theorem Permitted.of_prefix {permitted : τ → ι → Prop} {spec : τ → ι → ω × τ} {t : τ} {is js : List ι}
    (h : Permitted permitted spec t js) (hpre : is <+: js) : Permitted permitted spec t is := by
  induction is generalizing t js with
  | nil => trivial
  | cons i is ih =>
    obtain ⟨js, rfl, his⟩ := List.cons_prefix_iff.mp hpre
    exact ⟨h.1, ih h.2 his⟩

/-- Operations that are permitted, and meet a condition of their own. -/
theorem Permitted.and_forall {permitted : τ → ι → Prop} {spec : τ → ι → ω × τ} {t : τ} {is : List ι}
    {Fits : ι → Prop} (h : Permitted permitted spec t is) (hfits : ∀ i ∈ is, Fits i) :
    Permitted (fun t i => permitted t i ∧ Fits i) spec t is := by
  induction is generalizing t with
  | nil => trivial
  | cons i is ih =>
    rw [List.forall_mem_cons] at hfits
    exact ⟨⟨h.1, hfits.1⟩, ih h.2 hfits.2⟩

theorem run_cons_ok {step : σ → ι → Except ε (ω × σ)} {s s' : σ} {i : ι} {is : List ι} {o : ω}
    (h : step s i = .ok (o, s')) :
    run step s (i :: is) = (run step s' is).map fun r => (o :: r.1, r.2) := by
  simp only [run, h]

theorem run_cons_eq_ok {step : σ → ι → Except ε (ω × σ)} {s : σ} {i : ι} {is : List ι}
    {os : List ω} {s'' : σ} (h : run step s (i :: is) = .ok (os, s'')) :
    ∃ o s' os', step s i = .ok (o, s') ∧ run step s' is = .ok (os', s'') ∧ os = o :: os' := by
  cases hstep : step s i with
  | error e => simp [run, hstep] at h
  | ok r =>
    obtain ⟨o, s'⟩ := r
    rw [run_cons_ok hstep] at h
    cases hrest : run step s' is with
    | error e => simp [hrest, Except.map] at h
    | ok r' =>
      simp only [hrest, Except.map, Except.ok.injEq, Prod.mk.injEq] at h
      exact ⟨o, s', r'.1, rfl, by rw [hrest, ← h.2], h.1.symm⟩

/-- Runs compose. -/
theorem run_append (step : σ → ι → Except ε (ω × σ)) (is js : List ι) (s : σ) :
    run step s (is ++ js) =
      match run step s is with
      | .error e => .error e
      | .ok (os, s') => (run step s' js).map fun r => (os ++ r.1, r.2) := by
  induction is generalizing s with
  | nil =>
    simp only [run, List.nil_append]
    cases run step s js <;> rfl
  | cons i is ih =>
    simp only [List.cons_append, run]
    cases hstep : step s i with
    | error e => rfl
    | ok r =>
      obtain ⟨o, s₁⟩ := r
      simp only [ih]
      cases run step s₁ is with
      | error e => rfl
      | ok r =>
        obtain ⟨os, s'⟩ := r
        simp only [Except.map]
        cases run step s' js <;> rfl

/-- One more step. -/
theorem run_concat_ok {step : σ → ι → Except ε (ω × σ)} {s s' s'' : σ} {is : List ι} {i : ι}
    {os : List ω} {o : ω} (h : run step s is = .ok (os, s')) (hstep : step s' i = .ok (o, s'')) :
    run step s (is ++ [i]) = .ok (os ++ [o], s'') := by
  rw [run_append, h]
  dsimp only
  rw [run_cons_ok hstep]
  rfl

/-- A run up to its last step, and the last step. -/
theorem run_concat_eq_ok {step : σ → ι → Except ε (ω × σ)} {s s'' : σ} {is : List ι} {i : ι}
    {os : List ω} (h : run step s (is ++ [i]) = .ok (os, s'')) :
    ∃ os' s' o, run step s is = .ok (os', s') ∧ step s' i = .ok (o, s'') ∧ os = os' ++ [o] := by
  rw [run_append] at h
  cases hfront : run step s is with
  | error e => simp [hfront] at h
  | ok r =>
    obtain ⟨os', s'⟩ := r
    simp only [hfront] at h
    cases hlast : run step s' [i] with
    | error e => simp [hlast, Except.map] at h
    | ok r =>
      obtain ⟨o, s₁, os₁, hstep, hnil, hos⟩ := run_cons_eq_ok hlast
      simp only [run, Except.ok.injEq, Prod.mk.injEq] at hnil
      simp only [hlast, Except.map, Except.ok.injEq, Prod.mk.injEq] at h
      refine ⟨os', s', o, rfl, ?_, ?_⟩
      · rw [hstep, hnil.2, h.2]
      · rw [← h.1, hos, hnil.1]

/-- A run that goes well does so from its beginning on. -/
theorem run_of_prefix {step : σ → ι → Except ε (ω × σ)} {s s'' : σ} {is js : List ι} {os : List ω}
    (hpre : is <+: js) (h : run step s js = .ok (os, s'')) : ∃ os' s', run step s is = .ok (os', s') := by
  obtain ⟨rest, rfl⟩ := hpre
  rw [run_append] at h
  cases hfront : run step s is with
  | error e =>
    rw [hfront] at h
    cases h
  | ok r => exact ⟨r.1, r.2, rfl⟩

/-- **Invariants of runs.**  What every step keeps, every run keeps. -/
theorem run_invariant {step : σ → ι → Except ε (ω × σ)} {Inv : σ → Prop}
    (hstep : ∀ s i o s', Inv s → step s i = .ok (o, s') → Inv s')
    {s s' : σ} {is : List ι} {os : List ω} (hs : Inv s) (h : run step s is = .ok (os, s')) :
    Inv s' := by
  induction is generalizing s os with
  | nil =>
    simp only [run, Except.ok.injEq, Prod.mk.injEq] at h
    exact h.2 ▸ hs
  | cons i is ih =>
    obtain ⟨o, s₁, os₁, h₁, hrest, -⟩ := run_cons_eq_ok h
    exact ih (hstep s i o s₁ hs h₁) hrest

/-- How a step or a run may end: in an error `Err` allows, or in a state of `Inv`. -/
def Ends (Inv : σ → Prop) (Err : ε → Prop) {α : Type*} : Except ε (α × σ) → Prop
  | .error e => Err e
  | .ok (_, s) => Inv s

/-- **Guarded runs.**  What every step keeps as long as all it visits is good, every run keeps as long
as all it visits is good. -/
theorem run_guarded {α : Type*} {visit : σ → ι → List α} {step : σ → ι → Except ε (ω × σ)}
    {Inv : σ → Prop} {Err : ε → Prop} {Guard : α → Prop}
    (hstep : ∀ s i, Inv s → (∀ a ∈ visit s i, Guard a) → Ends Inv Err (step s i))
    {s : σ} {is : List ι} (hs : Inv s) (hguard : ∀ a ∈ visits visit step s is, Guard a) :
    Ends Inv Err (run step s is) := by
  induction is generalizing s with
  | nil => exact hs
  | cons i is ih =>
    rw [visits] at hguard
    have hends := hstep s i hs fun a ha => hguard a (List.mem_append_left _ ha)
    rw [run]
    cases hres : step s i with
    | error e =>
      rw [hres] at hends
      exact hends
    | ok r =>
      rw [hres] at hends hguard
      have hrest := ih hends fun a ha => hguard a (List.mem_append_right _ ha)
      dsimp only
      cases hrun : run step r.2 is with
      | error e =>
        rw [hrun] at hrest
        exact hrest
      | ok r' =>
        rw [hrun] at hrest
        exact hrest

theorem ends_map {Inv : σ → Prop} {Err : ε → Prop} {α β : Type*} (f : α → β) {x : Except ε (α × σ)} :
    Ends Inv Err (x.map fun r => (f r.1, r.2)) ↔ Ends Inv Err x := by
  cases x <;> exact Iff.rfl

/-- If every step from `Inv` succeeds and stays there, every run does. -/
theorem run_total {step : σ → ι → Except ε (ω × σ)} {Inv : σ → Prop}
    (hstep : ∀ s i, Inv s → ∃ o s', step s i = .ok (o, s') ∧ Inv s') {s : σ} (hs : Inv s)
    (is : List ι) : ∃ os s', run step s is = .ok (os, s') ∧ Inv s' := by
  induction is generalizing s with
  | nil => exact ⟨[], s, rfl, hs⟩
  | cons i is ih =>
    obtain ⟨o, s₁, h₁, hs₁⟩ := hstep s i hs
    obtain ⟨os, s₂, hrest, hs₂⟩ := ih hs₁
    exact ⟨o :: os, s₂, by rw [run_cons_ok h₁, hrest]; rfl, hs₂⟩

/-! ### Two machines side by side -/

section

variable {σ' ω' ε' α : Type*}

/-- Along two runs over the same operations, every step meets the condition. -/
def Meets (Guard : σ → σ' → ι → Prop) (step : σ → ι → Except ε (ω × σ))
    (step' : σ' → ι → Except ε' (ω' × σ')) : σ → σ' → List ι → Prop
  | _, _, [] => True
  | s, s', i :: is =>
    Guard s s' i ∧
      match step s i, step' s' i with
      | .ok (_, t), .ok (_, t') => Meets Guard step step' t t' is
      | _, _ => True

/-- **Agreement.**  If related states show the same exactly when a condition is met, and are then
related again, two runs show the same exactly when every step meets it. -/
theorem run_agree_iff {step : σ → ι → Except ε (ω × σ)} {step' : σ' → ι → Except ε' (ω' × σ')}
    {R : σ → σ' → Prop} {Guard : σ → σ' → ι → Prop} {see : ω → α} {see' : ω' → α}
    (hstep : ∀ s s' i o t o' t', R s s' → step s i = .ok (o, t) → step' s' i = .ok (o', t') →
      (see o = see' o' ↔ Guard s s' i) ∧ (Guard s s' i → R t t'))
    {s t : σ} {s' t' : σ'} {is : List ι} {os : List ω} {os' : List ω'} (hR : R s s')
    (hrun : run step s is = .ok (os, t)) (hrun' : run step' s' is = .ok (os', t')) :
    os.map see = os'.map see' ↔ Meets Guard step step' s s' is := by
  induction is generalizing s s' os os' with
  | nil =>
    simp only [run, Except.ok.injEq, Prod.mk.injEq] at hrun hrun'
    simp [← hrun.1, ← hrun'.1, Meets]
  | cons i is ih =>
    obtain ⟨o, s₁, os₁, h₁, hrest, rfl⟩ := run_cons_eq_ok hrun
    obtain ⟨o', s₁', os₁', h₁', hrest', rfl⟩ := run_cons_eq_ok hrun'
    obtain ⟨hsee, hkeep⟩ := hstep s s' i o s₁ o' s₁' hR h₁ h₁'
    simp only [Meets, h₁, h₁', List.map_cons, List.cons.injEq, hsee]
    exact and_congr_right fun hguard => ih (hkeep hguard) hrest hrest'

end

/-! ### Refinement -/

/-- The state a step leads to, if it does. -/
def reached (step : σ → ι → Except ε (ω × σ)) (s : σ) (i : ι) : List σ :=
  match step s i with
  | .error _ => []
  | .ok (_, s') => [s']

theorem forall_reached {step : σ → ι → Except ε (ω × σ)} {s : σ} {i : ι} {P : σ → Prop} :
    (∀ s' ∈ reached step s i, P s') ↔ ∀ o s', step s i = .ok (o, s') → P s' := by
  cases h : step s i with
  | error e => simp [reached, h]
  | ok r =>
    obtain ⟨o, s'⟩ := r
    simp [reached, h]

/-- **Exact guards.**  If a step from `Inv` leads to `Inv` exactly when all it visits is good, then a run
reaches only states of `Inv` exactly when all it visits is good. -/
theorem reached_iff_guarded {α : Type*} {visit : σ → ι → List α} {step : σ → ι → Except ε (ω × σ)}
    {Inv : σ → Prop} {Guard : α → Prop}
    (hstep : ∀ s i, Inv s → ((∀ s' ∈ reached step s i, Inv s') ↔ ∀ a ∈ visit s i, Guard a))
    {s : σ} {is : List ι} (hs : Inv s) :
    (∀ s' ∈ visits (reached step) step s is, Inv s') ↔ ∀ a ∈ visits visit step s is, Guard a := by
  induction is generalizing s with
  | nil => simp [visits]
  | cons i is ih =>
    have hone := hstep s i hs
    simp only [visits, List.forall_mem_append, hone]
    refine and_congr_right fun hguard => ?_
    cases hres : step s i with
    | error e => simp
    | ok r => exact ih (hone.mpr hguard r.2 (by simp [reached, hres]))

/-- Every beginning of a run ends well. -/
def AlwaysEnds (Inv : σ → Prop) (Err : ε → Prop) (step : σ → ι → Except ε (ω × σ)) (s : σ)
    (is : List ι) : Prop :=
  ∀ done, done <+: is → Ends Inv Err (run step s done)

theorem alwaysEnds_cons {Inv : σ → Prop} {Err : ε → Prop} {step : σ → ι → Except ε (ω × σ)} {s : σ} {i : ι}
    {is : List ι} :
    AlwaysEnds Inv Err step s (i :: is) ↔
      Inv s ∧ match step s i with
        | .error e => Err e
        | .ok (_, s') => AlwaysEnds Inv Err step s' is := by
  cases hres : step s i with
  | error e =>
    refine ⟨fun h => ⟨h [] List.nil_prefix, ?_⟩, fun h done hdone => ?_⟩
    · simpa [run, hres, Ends] using h [i] (List.prefix_append [i] is)
    · cases done with
      | nil => exact h.1
      | cons j done =>
        obtain rfl := (List.cons_prefix_cons.mp hdone).1
        simpa [run, hres, Ends] using h.2
  | ok r =>
    obtain ⟨o, s'⟩ := r
    refine ⟨fun h => ⟨h [] List.nil_prefix, fun done hdone => ?_⟩, fun h done hdone => ?_⟩
    · have hrun := h (i :: done) (List.cons_prefix_cons.mpr ⟨rfl, hdone⟩)
      rw [run_cons_ok hres] at hrun
      exact (ends_map _).mp hrun
    · cases done with
      | nil => exact h.1
      | cons j done =>
        obtain ⟨rfl, hrest⟩ := List.cons_prefix_cons.mp hdone
        rw [run_cons_ok hres]
        exact (ends_map _).mpr (h.2 done hrest)

/-- **Exact guards, and ends.**  If a step from `Inv` that meets a guard ends well and keeps `Inv`, and a step
that does not ends badly, then a run ends well all the time exactly when all its steps meet the guard. -/
theorem alwaysEnds_iff_guarded {Inv Sound : σ → Prop} {Err : ε → Prop} {Legal : ι → Prop}
    {Guard : σ → ι → Prop} {step : σ → ι → Except ε (ω × σ)} (hsound : ∀ s, Inv s → Sound s)
    (hgood : ∀ s i, Inv s → Legal i → Guard s i → Ends Inv Err (step s i))
    (hbad : ∀ s i, Inv s → Legal i → ¬ Guard s i → ¬ Ends Sound Err (step s i))
    {s : σ} {is : List ι} (hs : Inv s) (his : ∀ i ∈ is, Legal i) :
    AlwaysEnds Sound Err step s is ↔
      ∀ p ∈ visits (fun s i => [(s, i)]) step s is, Guard p.1 p.2 := by
  induction is generalizing s with
  | nil =>
    refine iff_of_true (fun done hdone => ?_) (by simp [visits])
    rw [List.prefix_nil.mp hdone]
    exact hsound s hs
  | cons i is ih =>
    obtain ⟨hlegal, his⟩ := List.forall_mem_cons.mp his
    rw [alwaysEnds_cons, visits, List.forall_mem_append, List.forall_mem_singleton]
    by_cases hguard : Guard s i
    · have hends := hgood s i hs hlegal hguard
      cases hres : step s i with
      | error e =>
        rw [hres] at hends
        exact iff_of_true ⟨hsound s hs, hends⟩ ⟨hguard, by simp⟩
      | ok r =>
        rw [hres] at hends
        exact and_congr (iff_of_true (hsound s hs) hguard) (ih hends his)
    · refine iff_of_false (fun h => hbad s i hs hlegal hguard ?_) fun h => hguard h.1
      cases hres : step s i with
      | error e =>
        rw [hres] at h
        exact h.2
      | ok r =>
        rw [hres] at h
        exact h.2 [] List.nil_prefix

/-! ### Transition systems -/

/-- The step function of a transition system: an action that is not enabled is no step. -/
def ofEnabled (Enabled : σ → ι → Prop) [∀ s i, Decidable (Enabled s i)] (next : σ → ι → σ) (s : σ)
    (i : ι) : Except Unit (Unit × σ) :=
  if Enabled s i then .ok ((), next s i) else .error ()

theorem ofEnabled_eq_ok {Enabled : σ → ι → Prop} [∀ s i, Decidable (Enabled s i)] {next : σ → ι → σ}
    {s s' : σ} {i : ι} {o : Unit} :
    ofEnabled Enabled next s i = .ok (o, s') ↔ Enabled s i ∧ next s i = s' := by
  rw [ofEnabled]
  split_ifs with h <;> simp [h]

/-- The steps of a run: the states it comes through, each with the operation performed there. -/
def steps (step : σ → ι → Except ε (ω × σ)) : σ → List ι → List (σ × ι) :=
  visits (fun s i => [(s, i)]) step

theorem visits_append {α : Type*} {visit : σ → ι → List α} {step : σ → ι → Except ε (ω × σ)}
    {s s' : σ} {is : List ι} {os : List ω} (h : run step s is = .ok (os, s')) (js : List ι) :
    visits visit step s (is ++ js) = visits visit step s is ++ visits visit step s' js := by
  induction is generalizing s os with
  | nil =>
    simp only [run, Except.ok.injEq, Prod.mk.injEq] at h
    simp [visits, h.2]
  | cons i is ih =>
    obtain ⟨o, s₁, os₁, h₁, hrest, -⟩ := run_cons_eq_ok h
    simp only [List.cons_append, visits, h₁, ih hrest, List.append_assoc]

/-- A run comes through the states its beginning comes through. -/
theorem prefix_visits_append {α : Type*} {visit : σ → ι → List α} {step : σ → ι → Except ε (ω × σ)}
    {s : σ} (is js : List ι) : visits visit step s is <+: visits visit step s (is ++ js) := by
  induction is generalizing s with
  | nil => exact List.nil_prefix
  | cons i is ih =>
    simp only [List.cons_append, visits]
    refine (List.prefix_append_right_inj _).mpr ?_
    cases step s i with
    | error e => exact List.nil_prefix
    | ok r => exact ih

/-- A step of a run, and the run up to it. -/
theorem exists_run_of_mem_steps {step : σ → ι → Except ε (ω × σ)} {s : σ} {is : List ι} {p : σ × ι}
    (h : p ∈ steps step s is) :
    ∃ done rest os, is = done ++ p.2 :: rest ∧ run step s done = .ok (os, p.1) := by
  induction is generalizing s with
  | nil => simp [steps, visits] at h
  | cons i is ih =>
    rw [steps, visits, List.singleton_append, List.mem_cons] at h
    rcases h with rfl | h
    · exact ⟨[], is, [], rfl, rfl⟩
    · cases hres : step s i with
      | error e => simp [hres] at h
      | ok r =>
        obtain ⟨o, s₁⟩ := r
        rw [hres] at h
        obtain ⟨done, rest, os, rfl, hrun⟩ := ih h
        exact ⟨i :: done, rest, o :: os, rfl, by rw [run_cons_ok hres, hrun]; rfl⟩

/-- **Sound or damaged.**  If a good step keeps a state sound, any other step damages it, and damage
stays, then a run ends sound if all its steps are good and damaged if not. -/
theorem run_sound_or_damaged {step : σ → ι → Except ε (ω × σ)} {Inv Sound Damaged : σ → Prop}
    {Good : σ → ι → Prop} (hinv : ∀ s i o s', Inv s → step s i = .ok (o, s') → Inv s')
    (hgood : ∀ s i o s', Inv s → Sound s → step s i = .ok (o, s') → Good s i → Sound s')
    (hbad : ∀ s i o s', Inv s → step s i = .ok (o, s') → ¬ Good s i → Damaged s')
    (hstay : ∀ s i o s', Inv s → Damaged s → step s i = .ok (o, s') → Damaged s')
    {s s' : σ} {is : List ι} {os : List ω} (hs : Inv s) (hrun : run step s is = .ok (os, s')) :
    (Sound s → (∀ p ∈ steps step s is, Good p.1 p.2) → Sound s') ∧
      ((Damaged s ∨ ¬ ∀ p ∈ steps step s is, Good p.1 p.2) → Damaged s') := by
  induction is generalizing s os with
  | nil =>
    simp only [run, Except.ok.injEq, Prod.mk.injEq] at hrun
    simp [← hrun.2, steps, visits]
  | cons i is ih =>
    obtain ⟨o, s₁, os₁, h₁, hrest, -⟩ := run_cons_eq_ok hrun
    obtain ⟨ihsound, ihdamaged⟩ := ih (hinv s i o s₁ hs h₁) hrest
    have hsteps : steps step s (i :: is) = (s, i) :: steps step s₁ is := by
      simp only [steps, visits, h₁, List.singleton_append]
    rw [hsteps, List.forall_mem_cons]
    refine ⟨fun hsound hgoods => ihsound (hgood s i o s₁ hs hsound h₁ hgoods.1) hgoods.2, ?_⟩
    rintro (hdamaged | hbads)
    · exact ihdamaged (.inl (hstay s i o s₁ hs hdamaged h₁))
    · by_cases hfirst : Good s i
      · exact ihdamaged (.inr fun hrest => hbads ⟨hfirst, hrest⟩)
      · exact ihdamaged (.inl (hbad s i o s₁ hs h₁ hfirst))

/-! ### The simulation rule -/

/-- **The simulation rule.** -/
theorem run_refines {step : σ → ι → Except ε (ω × σ)} {spec : τ → ι → ω × τ}
    {permitted : τ → ι → Prop} {R : σ → τ → Prop}
    (hsim : ∀ s t i, R s t → permitted t i →
      ∃ s', step s i = .ok ((spec t i).1, s') ∧ R s' (spec t i).2)
    {s : σ} {t : τ} {is : List ι} (hR : R s t) (hp : Permitted permitted spec t is) :
    ∃ s', run step s is = .ok ((specRun spec t is).1, s') ∧ R s' (specRun spec t is).2 := by
  induction is generalizing s t with
  | nil => exact ⟨s, rfl, hR⟩
  | cons i is ih =>
    obtain ⟨hi, his⟩ := hp
    obtain ⟨s₁, hstep, hR₁⟩ := hsim s t i hR hi
    obtain ⟨s₂, hrest, hR₂⟩ := ih hR₁ his
    refine ⟨s₂, ?_, hR₂⟩
    rw [run_cons_ok hstep, hrest]
    rfl

end LearnNetlib.Runs
