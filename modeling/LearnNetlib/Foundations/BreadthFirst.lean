import LearnNetlib.Foundations.Loops
import Mathlib.Data.List.Dedup
import Mathlib.Data.List.Nodup
import Mathlib.Logic.Hydra

/-!
# Breadth-first walks with a queue

A walk takes the first of a queue and puts what lies next to it behind the last. Nothing is marked:
what is reached on two ways is visited twice.

* `Child`, `Below` — one step, and any number;
* `Walk` — in which order what a queue leads to is visited;
* **`exists_walk`** — a walk of a finite tree ends;
* `mem_walk_iff`, **`below_after`**, **`nodup_walk`** — it visits everything below the queue, what is below
  something after it, and in a tree nothing twice;
* **`loop_walk`** — a loop over a queue is a fold over its walk.
-/

namespace LearnNetlib.BreadthFirst

variable {α : Type*} (next : α → List α)

/-- One step down. -/
def Child (b a : α) : Prop := b ∈ next a

/-- What a walk from `a` comes to, `a` among it. -/
def Below (a b : α) : Prop := Relation.ReflTransGen (fun a b => Child next b a) a b

/-- The walk of a queue. -/
inductive Walk : List α → List α → Prop
  | done : Walk [] []
  | visit {a : α} {queue order : List α} (h : Walk (queue ++ next a) order) : Walk (a :: queue) (a :: order)

variable {next}

/-! ### The walk ends -/

theorem acc_of_mem {a b : α} (ha : Acc (Child next) a) (hb : b ∈ next a) : Acc (Child next) b := ha.inv hb

theorem irrefl_of_acc {r : α → α → Prop} {a : α} (ha : Acc r a) : ¬ r a a := by
  induction ha with
  | intro a _ ih =>
    intro hloop
    exact ih a hloop hloop

/-- **The walk of a finite tree ends**: the queue is a hydra whose heads are cut one after the other. -/
theorem exists_walk {queue : List α} (hqueue : ∀ a ∈ queue, Acc (Child next) a) :
    ∃ order, Walk next queue order := by
  let Proper : α → α → Prop := fun b a => Child next b a ∧ b ≠ a
  have hirrefl : Std.Irrefl Proper := ⟨fun a h => h.2 rfl⟩
  have hheads : ∀ a ∈ (queue : Multiset α), Acc (Relation.CutExpand Proper) {a} := by
    intro a ha
    exact Acc.cutExpand (Subrelation.accessible (fun h => h.1) (hqueue a ha))
  have hacc := Relation.acc_of_singleton hheads
  generalize hheap : (queue : Multiset α) = heap at hacc
  clear hheads
  induction hacc generalizing queue with
  | intro heap _ ih =>
    cases queue with
    | nil => exact ⟨[], .done⟩
    | cons a queue =>
      have ha := hqueue a List.mem_cons_self
      have hcut : Relation.CutExpand Proper ((queue ++ next a : List α) : Multiset α) heap := by
        refine ⟨(next a : Multiset α), a, fun b hb => ⟨hb, ?_⟩, ?_⟩
        · rintro rfl
          exact irrefl_of_acc ha hb
        · rw [← hheap, ← Multiset.cons_coe, ← Multiset.coe_add, ← Multiset.singleton_add,
            add_right_comm, add_comm (queue : Multiset α)]
      have hrest : ∀ b ∈ queue ++ next a, Acc (Child next) b := by
        intro b hb
        rcases List.mem_append.mp hb with hb | hb
        · exact hqueue b (List.mem_cons_of_mem a hb)
        · exact acc_of_mem ha hb
      obtain ⟨order, horder⟩ := ih _ hcut hrest rfl
      exact ⟨a :: order, .visit horder⟩

/-! ### What is visited, and when -/

theorem below_iff {a b : α} : Below next a b ↔ b = a ∨ ∃ c ∈ next a, Below next c b := by
  rw [Below, Relation.ReflTransGen.cases_head_iff, eq_comm]
  rfl

/-- **Everything below the queue is visited, and nothing else.** -/
theorem mem_walk_iff {queue order : List α} (h : Walk next queue order) (b : α) :
    b ∈ order ↔ ∃ a ∈ queue, Below next a b := by
  induction h with
  | done => simp
  | @visit a queue order _ ih =>
    rw [List.mem_cons, ih]
    simp only [List.exists_mem_cons_iff, List.mem_append, or_and_right, exists_or, below_iff (a := a)]
    rw [or_assoc]
    exact or_congr_right or_comm

/-- **What is below something is visited after it.** -/
theorem below_after {queue order : List α} (h : Walk next queue order) {before after : List α} {a b c : α}
    (horder : order = before ++ a :: after) (hc : c ∈ next a) (hb : Below next c b) : b ∈ after := by
  induction h generalizing before with
  | done => exact absurd horder.symm (by simp)
  | @visit a' queue order h ih =>
    cases before with
    | nil =>
      obtain ⟨rfl, rfl⟩ := List.cons_eq_cons.mp horder
      exact (mem_walk_iff h b).mpr ⟨c, List.mem_append_right _ hc, hb⟩
    | cons x before => exact ih (List.cons_eq_cons.mp horder).2

/-! ### Trees -/

/-- What is below the queue is a tree: each element has one parent at most, and is found in its listing
once. -/
structure IsTree (next : α → List α) (inside : α → Prop) : Prop where
  closed : ∀ a, inside a → ∀ b ∈ next a, inside b
  acc : ∀ a, inside a → Acc (Child next) a
  parent : ∀ a a', inside a → inside a' → ∀ b ∈ next a, b ∈ next a' → a = a'
  nodup : ∀ a, inside a → (next a).Nodup

theorem IsTree.below {inside : α → Prop} (htree : IsTree next inside) {a b : α} (ha : inside a)
    (hb : Below next a b) : inside b := by
  induction hb with
  | refl => exact ha
  | tail _ hstep ih => exact htree.closed _ ih _ hstep

/-- Nothing is below itself. -/
theorem not_below_child {a b : α} (ha : Acc (Child next) a) (hb : b ∈ next a) : ¬ Below next b a := by
  intro hba
  have hloop : Relation.TransGen (fun a b => Child next b a) a a := Relation.TransGen.head' hb hba
  exact irrefl_of_acc ha.transGen (Relation.transGen_swap.mp hloop)

/-- **In a tree nothing is visited twice**, if nothing of the queue is below the rest of it. -/
theorem nodup_walk {inside : α → Prop} (htree : IsTree next inside) {queue order : List α}
    (h : Walk next queue order) (hinside : ∀ a ∈ queue, inside a)
    (hapart : queue.Pairwise fun a b => ¬ Below next a b ∧ ¬ Below next b a) : order.Nodup := by
  induction h with
  | done => exact List.nodup_nil
  | @visit a queue order h ih =>
    obtain ⟨hfirst, hrest⟩ := List.pairwise_cons.mp hapart
    have ha := hinside a List.mem_cons_self
    have hqueue : ∀ b ∈ queue, inside b := fun b hb => hinside b (List.mem_cons_of_mem a hb)
    have hnext : (next a).Pairwise fun b c => ¬ Below next b c ∧ ¬ Below next c b := by
      have hsibling : ∀ b ∈ next a, ∀ c ∈ next a, b ≠ c → ¬ Below next b c := by
        intro b hb c hc hne hbc
        rcases Relation.ReflTransGen.cases_tail hbc with rfl | ⟨p, hp, hpc⟩
        · exact hne rfl
        · have hparent := htree.parent p a (htree.below (htree.closed a ha b hb) hp) ha c hpc hc
          exact not_below_child (htree.acc a ha) hb (hparent ▸ hp)
      refine List.Pairwise.imp_of_mem ?_ (htree.nodup a ha)
      intro b c hb hc hne
      exact ⟨hsibling b hb c hc hne, hsibling c hc b hb (Ne.symm hne)⟩
    have hcross : ∀ b ∈ queue, ∀ c ∈ next a, ¬ Below next b c ∧ ¬ Below next c b := by
      intro b hb c hc
      obtain ⟨hab, hba⟩ := hfirst b hb
      refine ⟨fun hbc => ?_, fun hcb => hab (Relation.ReflTransGen.head hc hcb)⟩
      rcases Relation.ReflTransGen.cases_tail hbc with rfl | ⟨p, hp, hpc⟩
      · exact hab (Relation.ReflTransGen.single hc)
      · exact hba (htree.parent p a (htree.below (hqueue b hb) hp) ha c hpc hc ▸ hp)
    refine List.nodup_cons.mpr ⟨?_, ih ?_ ?_⟩
    · intro hmem
      obtain ⟨b, hb, hba⟩ := (mem_walk_iff h a).mp hmem
      rcases List.mem_append.mp hb with hb | hb
      · exact (hfirst b hb).2 hba
      · exact not_below_child (htree.acc a ha) hb hba
    · intro b hb
      rcases List.mem_append.mp hb with hb | hb
      · exact hqueue b hb
      · exact htree.closed a ha b hb
    · exact List.pairwise_append.mpr ⟨hrest, hnext, hcross⟩

/-! ### Loops -/

/-- **A loop over a queue is a fold over its walk.** A state is the queue and the rest of it; `visit`
is what a turn does to the rest. -/
theorem loop_walk {σ ε β : Type*} {still : ε} {turn : σ → Except ε (σ ⊕ σ)} (state : List α → β → σ)
    (visit : β → α → β) (hdone : ∀ b, turn (state [] b) = .ok (.inr (state [] b)))
    (hturn : ∀ a rest b, turn (state (a :: rest) b) = .ok (.inl (state (rest ++ next a) (visit b a))))
    {queue order : List α} (h : Walk next queue order) (b : β) :
    Loops.loop still turn (order.length + 1) (state queue b)
      = .ok (state [] (order.foldl visit b)) := by
  induction h generalizing b with
  | done => rw [List.length_nil, Loops.loop, hdone, List.foldl_nil]
  | @visit a rest order _ ih => rw [List.length_cons, Loops.loop, hturn, List.foldl_cons, ← ih]

end LearnNetlib.BreadthFirst
