import LearnNetlib.Io.CleanPath
import Mathlib.Data.List.TakeWhile

/-!
# Every run of `CleanPath`

* `keptText` — the kept components, each with a separator behind it;
* `At.part_dot`, `At.part_up_cancel`, `At.part_up_root`, `At.part_up_keep`, `At.part_name` — a turn of
  the main loop, one lemma for each of its ways;
* `Turned` — what a turn leaves; **`Head.turn`** — every turn does;
* `Head.parts_spec`, `rewrite_spec` — the main loop, and what it leaves in front of `dst`: `written`;
* `cleanPath_short`, `cleanPath_long` — what is made of that, up to the longest `int` and from there on;
* **`cleanPath_normalizes_iff`** — the result is the normal form, and final, exactly if an `int` can
  hold its length; no write ever overtakes the reads.
-/

namespace LearnNetlib.Path

open LexicalPath

/-! ### One part -/

section

variable {n limit k : ℕ} {s : Cursors} {pre rest : Bytes}

theorem At.setLimit (h : At n limit s pre rest) (limit' : ℕ) :
    At n limit' { s with backtrackLimit := limit' } pre rest :=
  ⟨h.length, h.src_le, h.dst_le, h.written, h.unread, rfl, h.writes⟩

theorem At.unread_le (h : At n limit s pre rest) : rest.length ≤ n := by
  have hdrop := congrArg List.length h.unread
  have hpath := h.length
  rw [List.length_drop] at hdrop
  omega

/-- Looking at the end of a part. -/
theorem At.charAt_end (ahead : Bytes) (h : At n limit s pre (ahead ++ rest)) (hends : EndsPart rest) :
    ∃ c, s.charAt ahead.length = .ok c ∧ (c = slash ∨ c = 0) := by
  cases rest with
  | nil =>
    refine ⟨0, h.charAt ?_, .inr rfl⟩
    rw [List.append_nil, List.getElem?_append_right le_rfl, Nat.sub_self]
    rfl
  | cons c rest =>
    refine ⟨c, h.charAt ?_, .inl (hends c rfl)⟩
    rw [List.append_assoc, List.getElem?_append_right le_rfl, Nat.sub_self]
    rfl

/-- **A dot** is passed over. -/
theorem At.part_dot (h : At n limit s pre (dot :: rest)) (hends : EndsPart rest) (absolute : Bool)
    (k : ℕ) : ∃ s', s.part absolute k = .ok s' ∧ At n limit s' pre (rest.drop 1) := by
  obtain ⟨c, hc, hend⟩ := At.charAt_end [dot] h hends
  obtain ⟨s', hskip, h'⟩ := h.next.skipOne_spec hends
  refine ⟨s', ?_, h'⟩
  rw [Cursors.part, h.head, Access.ok_bind]
  show (if dot = dot then _ else _) = _
  rw [if_pos rfl, show s.charAt 1 = .ok c from hc, Access.ok_bind, if_pos hend, hskip]

/-- Two dots are sent to `parent`. -/
theorem At.part_up (h : At n limit s pre (dot :: dot :: rest)) (hends : EndsPart rest)
    (absolute : Bool) (k : ℕ) : s.part absolute k = s.parent absolute k := by
  obtain ⟨c, hc, hend⟩ := At.charAt_end [dot, dot] h hends
  have hdot : s.charAt 1 = .ok dot := h.charAt rfl
  rw [Cursors.part, h.head, Access.ok_bind]
  show (if dot = dot then _ else _) = _
  rw [if_pos rfl, hdot, Access.ok_bind, if_neg (by decide), if_pos rfl,
    show s.charAt 2 = .ok c from hc, Access.ok_bind, if_pos hend]

/-- **An up cancels the name written last.** -/
theorem At.part_up_cancel {base name : Bytes}
    (h : At n limit s (base ++ name ++ [slash]) (dot :: dot :: rest)) (hends : EndsPart rest)
    (hname : slash ∉ name) (hlimit : limit ≤ base.length)
    (hbase : base.length = limit ∨ base.getLast? = some slash) (absolute : Bool)
    (hk : name.length < k) :
    ∃ s', s.part absolute k = .ok s' ∧ At n limit s' base (rest.drop 1) := by
  have hdst := h.dst_eq
  have hskipped := h.next.next
  have hpath : s.dst ≤ s.path.length := by
    have h1 := h.length
    have h2 := h.src_le
    have h3 := h.dst_le
    omega
  rw [List.length_append, List.length_append, List.length_singleton] at hdst
  have hback : s.next.next.back = .ok { s.next.next with dst := s.dst - 1 } :=
    if_pos (show 0 < s.dst by omega)
  have htake : ({ s.next.next with dst := s.dst - 1 } : Cursors).path.take (s.dst - 1)
      = base ++ name := by
    show s.path.take (s.dst - 1) = _
    have hcut := congrArg (List.take (s.dst - 1)) h.written
    rwa [List.take_take, Nat.min_eq_left (by omega), List.take_left' (by
      rw [List.length_append]
      omega)] at hcut
  have hlimit' := h.limit
  have hloop := backtrack_spec (s := { s.next.next with dst := s.dst - 1 }) htake
    (show s.dst - 1 ≤ s.path.length by omega) hname (show s.backtrackLimit ≤ _ by omega)
    (show base.length = s.backtrackLimit ∨ _ by rwa [hlimit']) hk
  have hat : At n limit { s.next.next with dst := base.length } base rest := by
    refine ⟨hskipped.length, hskipped.src_le, ?_, ?_, hskipped.unread, hskipped.limit,
      hskipped.writes⟩
    · have h3 := hskipped.dst_le
      show base.length ≤ s.next.next.src
      exact le_trans (show base.length ≤ s.dst by omega) h3
    · show s.path.take base.length = base
      have hcut := congrArg (List.take base.length) h.written
      rwa [List.take_take, Nat.min_eq_left (by omega), List.append_assoc, List.take_left] at hcut
  obtain ⟨s', hskip, h'⟩ := hat.skipOne_spec hends
  refine ⟨s', ?_, h'⟩
  have hne : s.dst ≠ s.backtrackLimit := by omega
  rw [h.part_up hends, Cursors.parent,
    if_pos (show s.next.next.dst ≠ s.next.next.backtrackLimit from hne), hback, Access.ok_bind, hloop,
    Access.ok_bind, hskip]

/-- **An up at the root** is passed over. -/
theorem At.part_up_root (h : At n limit s pre (dot :: dot :: rest)) (hends : EndsPart rest)
    (hlimit : pre.length = limit) (k : ℕ) :
    ∃ s', s.part true k = .ok s' ∧ At n limit s' pre (rest.drop 1) := by
  obtain ⟨s', hskip, h'⟩ := h.next.next.skipOne_spec hends
  refine ⟨s', ?_, h'⟩
  have hdst : s.next.next.dst = s.next.next.backtrackLimit := by
    rw [h.next.next.dst_eq, h.next.next.limit, hlimit]
  rw [h.part_up hends, Cursors.parent, if_neg (not_not.mpr hdst), if_neg (by decide), Access.ok_bind,
    hskip]

/-- **An up that cannot be cancelled** is copied, and is the new limit. -/
theorem At.part_up_keep (h : At n limit s pre (dot :: dot :: rest)) (hends : EndsPart rest)
    (hlimit : pre.length = limit) (k : ℕ) :
    ∃ s', s.part false k = .ok s' ∧
      At n (pre ++ [dot, dot] ++ rest.take 1).length s' (pre ++ [dot, dot] ++ rest.take 1)
        (rest.drop 1) := by
  have hdst : s.next.next.dst = s.next.next.backtrackLimit := by
    rw [h.next.next.dst_eq, h.next.next.limit, hlimit]
  obtain ⟨s₁, hput₁, -, -, h₁⟩ := h.put
  obtain ⟨s₂, hput₂, -, -, h₂⟩ := h₁.put
  rw [List.append_assoc, List.singleton_append] at h₂
  have hcopy : ∃ s', (s.copyUp >>= Cursors.skipOne) = .ok s' ∧
      At n (pre ++ [dot, dot] ++ rest.take 1).length s' (pre ++ [dot, dot] ++ rest.take 1)
        (rest.drop 1) := by
    rw [Cursors.copyUp, hput₁, Access.ok_bind, hput₂, Access.ok_bind]
    dsimp only
    rw [h₂.head, Access.ok_bind]
    cases rest with
    | nil =>
      have h₃ := h₂.setLimit s₂.next.dst
      refine ⟨{ s₂.next with backtrackLimit := s₂.next.dst }, ?_, ?_⟩
      · show Cursors.skipOne _ = _
        rw [Cursors.skipOne, h₃.head]
        rfl
      · rw [List.take_nil, List.append_nil, ← h₂.dst_eq]
        exact h₃
    | cons c rest =>
      obtain rfl := hends c rfl
      obtain ⟨s₃, hput₃, hread₃, hdst₃, h₃⟩ := h₂.put
      refine ⟨{ s₃.next with backtrackLimit := s₃.dst }, ?_, ?_⟩
      · rw [if_pos (show List.headD (slash :: rest ++ [0]) 0 ≠ 0 from (by decide : slash ≠ 0)), hput₃]
        show Cursors.skipOne { s₃ with backtrackLimit := s₃.dst } = _
        rw [Cursors.skipOne,
          show Cursors.charAt { s₃ with backtrackLimit := s₃.dst } 0 = .ok slash from hread₃]
        rfl
      · have hlast := h₃.setLimit s₃.dst
        rw [hdst₃] at hlast ⊢
        rw [List.take_succ_cons, List.take_zero, List.length_append, List.length_singleton]
        exact hlast
  obtain ⟨s', hcopy, h'⟩ := hcopy
  refine ⟨s', ?_, h'⟩
  rw [h.part_up hends, Cursors.parent, if_neg (not_not.mpr hdst), if_pos rfl]
  exact hcopy

/-- **Any other part** is copied. -/
theorem At.part_name {name : Bytes} (h : At n limit s pre (name ++ rest)) (hends : EndsPart rest)
    (hname : ∀ c ∈ name, c ≠ 0 ∧ c ≠ slash) (hnil : name ≠ []) (hdot : name ≠ [dot])
    (hup : name ≠ [dot, dot]) (absolute : Bool) (hk : name.length < k) :
    ∃ s', s.part absolute k = .ok s' ∧
      At n limit s' (pre ++ name ++ rest.take 1) (rest.drop 1) := by
  have hcopy : ∃ s', s.copy k = .ok s' ∧
      At n limit s' (pre ++ name ++ rest.take 1) (rest.drop 1) := by
    obtain ⟨s₁, hpart, h₁⟩ := h.copyPart_spec hname hends hk
    cases rest with
    | nil =>
      refine ⟨s₁, ?_, by rwa [List.take_nil, List.append_nil]⟩
      rw [Cursors.copy, hpart, Access.ok_bind, h₁.head]
      rfl
    | cons c rest =>
      obtain rfl := hends c rfl
      obtain ⟨s₂, hput, -, -, h₂⟩ := h₁.put
      refine ⟨s₂.next, ?_, h₂⟩
      rw [Cursors.copy, hpart, Access.ok_bind, h₁.head, Access.ok_bind]
      show (if slash ≠ 0 then _ else _) = _
      rw [if_pos (by decide), hput]
      rfl
  have hpart : s.part absolute k = s.copy k := by
    cases name with
    | nil => exact absurd rfl hnil
    | cons c₀ name =>
      rw [Cursors.part, h.head, Access.ok_bind]
      show (if c₀ = dot then _ else _) = _
      by_cases hc₀ : c₀ = dot
      · -- the part goes on behind the dot
        subst hc₀
        cases name with
        | nil => exact absurd rfl hdot
        | cons c₁ name =>
          obtain ⟨hzero₁, hslash₁⟩ := hname c₁ (by simp)
          rw [if_pos rfl, show s.charAt 1 = .ok c₁ from h.charAt rfl, Access.ok_bind,
            if_neg (not_or.mpr ⟨hslash₁, hzero₁⟩)]
          by_cases hc₁ : c₁ = dot
          · subst hc₁
            cases name with
            | nil => exact absurd rfl hup
            | cons c₂ name =>
              obtain ⟨hzero₂, hslash₂⟩ := hname c₂ (by simp)
              rw [if_pos rfl, show s.charAt 2 = .ok c₂ from h.charAt rfl, Access.ok_bind,
                if_neg (not_or.mpr ⟨hslash₂, hzero₂⟩)]
          · rw [if_neg hc₁]
      · rw [if_neg hc₀]
  rw [hpart]
  exact hcopy

end

/-! ### The main loop -/

/-- The kept components, each with a separator behind it. -/
def keptText (absolute : Bool) (kept : List Bytes) : Bytes :=
  (if absolute then [slash] else []) ++ kept.reverse.flatMap (· ++ [slash])

theorem keptText_cons (absolute : Bool) (c : Bytes) (kept : List Bytes) :
    keptText absolute (c :: kept) = keptText absolute kept ++ c ++ [slash] := by
  simp [keptText]

theorem keptText_append (absolute : Bool) (as bs : List Bytes) :
    keptText absolute (as ++ bs) = keptText absolute bs ++ as.reverse.flatMap (· ++ [slash]) := by
  simp [keptText]

/-- Names above ups. -/
def stack (names : List Bytes) (ups : ℕ) : List Bytes := names ++ List.replicate ups [dot, dot]

/-- The head of the main loop: the kept components are written, and the limit is behind the ups. -/
structure Head (n : ℕ) (absolute : Bool) (names : List Bytes) (ups : ℕ) (s : Cursors)
    (unread : Bytes) : Prop where
  resolved : Resolved slash dot absolute names ups
  cursors : At n (keptText absolute (List.replicate ups [dot, dot])).length s
    (keptText absolute (stack names ups)) unread
  nul : ∀ c ∈ unread, c ≠ 0

section

variable {n k ups : ℕ} {absolute : Bool} {names : List Bytes} {s : Cursors}

/-- In front of the last name is the limit or a separator. -/
theorem getLast?_keptText (absolute : Bool) (names : List Bytes) (ups : ℕ) :
    (keptText absolute (stack names ups)).length
        = (keptText absolute (List.replicate ups [dot, dot])).length ∨
      (keptText absolute (stack names ups)).getLast? = some slash := by
  cases names with
  | nil => exact .inl rfl
  | cons d names =>
    refine .inr ?_
    rw [stack, List.cons_append, keptText_cons, List.getLast?_concat]

/-- What a turn that goes over the part `c` leaves: the components that the reference keeps then are
written, but for the last separator if the text has none. -/
def Turned (n k : ℕ) (absolute : Bool) (names : List Bytes) (ups : ℕ) (s : Cursors)
    (c rest : Bytes) : Prop :=
  ∃ s' names' ups' limit pre, s.part absolute k = .ok s' ∧ At n limit s' pre (rest.drop 1) ∧
    stack names' ups' = visit dot absolute (stack names ups) c ∧
    Resolved slash dot absolute names' ups' ∧
    (rest ≠ [] → limit = (keptText absolute (List.replicate ups' [dot, dot])).length) ∧
    pre ++ (if rest = [] ∧ keepsLast dot absolute (stack names ups) [c] then [slash] else [])
      = keptText absolute (stack names' ups')

variable {c rest : Bytes}

/-- A part that adds nothing. -/
theorem Turned.skipped {names' : List Bytes} {s' : Cursors} (hpart : s.part absolute k = .ok s')
    (h' : At n (keptText absolute (List.replicate ups [dot, dot])).length s'
      (keptText absolute (stack names' ups)) (rest.drop 1))
    (hvisit : visit dot absolute (stack names ups) c = stack names' ups)
    (hresolved : Resolved slash dot absolute names' ups) (hshort : names'.length ≤ names.length) :
    Turned n k absolute names ups s c rest := by
  have hlast : ¬ keepsLast dot absolute (stack names ups) [c] = true := by
    intro hkeeps
    obtain ⟨hnil, hdot, hresolve⟩ := of_decide_eq_true hkeeps
    have hstack : stack names' ups = c :: stack names ups :=
      hvisit.symm.trans ((if_pos ⟨hnil, hdot⟩).trans hresolve)
    have hlength := congrArg List.length hstack
    simp only [stack, List.length_cons, List.length_append] at hlength
    omega
  refine ⟨s', names', ups, _, _, hpart, h', hvisit.symm, hresolved, fun _ => rfl, ?_⟩
  rw [if_neg fun hno => hlast hno.2, List.append_nil]

/-- A part that is copied, with its separator if it has one. -/
theorem Turned.copied {names' : List Bytes} {ups' limit : ℕ} {s' : Cursors}
    (hpart : s.part absolute k = .ok s')
    (h' : At n limit s' (keptText absolute (stack names ups) ++ c ++ rest.take 1) (rest.drop 1))
    (hends : EndsPart rest) (hnil : c ≠ []) (hdot : c ≠ [dot])
    (hresolve : resolve dot absolute (stack names ups) c = c :: stack names ups)
    (hstack : stack names' ups' = c :: stack names ups)
    (hresolved : Resolved slash dot absolute names' ups')
    (hlimit : rest ≠ [] → limit = (keptText absolute (List.replicate ups' [dot, dot])).length) :
    Turned n k absolute names ups s c rest := by
  refine ⟨s', names', ups', limit, _, hpart, h', ?_, hresolved, hlimit, ?_⟩
  · rw [hstack, visit, if_pos ⟨hnil, hdot⟩, hresolve]
  · have hpushed : keepsLast dot absolute (stack names ups) [c] = true :=
      decide_eq_true ⟨hnil, hdot, hresolve⟩
    rw [hpushed, hstack, keptText_cons]
    cases rest with
    | nil => simp
    | cons x rest =>
      obtain rfl := hends x rfl
      simp

/-- **An up** takes back the last name, or joins the ups. -/
theorem Head.turn_up (h : Head n absolute names ups s (dot :: dot :: rest)) (hends : EndsPart rest)
    (hk : n < k) : Turned n k absolute names ups s [dot, dot] rest := by
  have hat := h.cursors
  have hvisit : visit dot absolute (stack names ups) [dot, dot]
      = resolve dot absolute (stack names ups) [dot, dot] := if_pos ⟨by simp, by simp⟩
  cases names with
  | cons d names =>
    obtain ⟨hd, hnames⟩ := List.forall_mem_cons.mp h.resolved.1
    have hresolve : resolve dot absolute (stack (d :: names) ups) [dot, dot] = stack names ups :=
      resolve_up_cons hd.ne_up absolute _
    have hfront : keptText absolute (stack (d :: names) ups)
        = keptText absolute (stack names ups) ++ d ++ [slash] := keptText_cons absolute d _
    have hlong := hat.dst_eq
    have hsrc := hat.src_le
    have hdst := hat.dst_le
    rw [hfront] at hat
    rw [hfront, List.length_append, List.length_append, List.length_singleton] at hlong
    have hlimit : (keptText absolute (List.replicate ups [dot, dot])).length
        ≤ (keptText absolute (stack names ups)).length := by
      rw [stack, keptText_append, List.length_append]
      exact Nat.le_add_right _ _
    obtain ⟨s', hpart, h'⟩ := hat.part_up_cancel hends hd.sep_notMem hlimit
      (getLast?_keptText absolute names ups) absolute (show d.length < k by omega)
    exact .skipped hpart h' (hvisit.trans hresolve) ⟨hnames, h.resolved.2⟩ (Nat.le_succ _)
  | nil =>
    have hresolve := resolve_up_replicate dot absolute ups
    cases absolute with
    | true =>
      obtain ⟨s', hpart, h'⟩ := hat.part_up_root hends rfl k
      exact .skipped hpart h' (hvisit.trans hresolve) h.resolved le_rfl
    | false =>
      obtain ⟨s', hpart, h'⟩ := hat.part_up_keep hends rfl k
      have hkept : keptText false (stack [] (ups + 1))
          = keptText false (stack [] ups) ++ [dot, dot] ++ [slash] := keptText_cons false _ _
      refine Turned.copied hpart h' hends (by simp) (by simp) hresolve
        (show stack [] (ups + 1) = _ from rfl) ⟨h.resolved.1, by simp⟩ fun hne => ?_
      obtain ⟨x, rest, rfl⟩ := List.exists_cons_of_ne_nil hne
      obtain rfl := hends x rfl
      exact congrArg List.length hkept.symm

/-- **A turn of the main loop** keeps what the reference keeps, and copies the separator of what it
copies. -/
theorem Head.turn (h : Head n absolute names ups s (c ++ rest)) (hnil : c ≠ []) (hsep : slash ∉ c)
    (hends : EndsPart rest) (hk : n < k) : Turned n k absolute names ups s c rest := by
  have hat := h.cursors
  by_cases hdot : c = [dot]
  · subst hdot
    obtain ⟨s', hpart, h'⟩ := hat.part_dot hends absolute k
    exact .skipped hpart h' (if_neg fun hno => hno.2 rfl) h.resolved le_rfl
  by_cases hup : c = [dot, dot]
  · subst hup
    exact h.turn_up hends hk
  · have hname : ∀ x ∈ c, x ≠ 0 ∧ x ≠ slash := fun x hx =>
      ⟨h.nul x (List.mem_append_left _ hx), fun heq => hsep (heq ▸ hx)⟩
    have hlength := hat.unread_le
    rw [List.length_append] at hlength
    obtain ⟨s', hpart, h'⟩ :=
      hat.part_name hends hname hnil hdot hup absolute (show c.length < k by omega)
    exact .copied hpart h' hends hnil hdot (resolve_cons hup absolute _) List.cons_append
      ⟨List.forall_mem_cons.mpr ⟨⟨hnil, hdot, hup, hsep⟩, h.resolved.1⟩, h.resolved.2⟩ fun _ => rfl

/-- A text that does not begin with a separator begins with a part. -/
theorem exists_part {unread : Bytes} (hne : unread ≠ []) (hhead : unread.head? ≠ some slash) :
    ∃ c rest, unread = c ++ rest ∧ c ≠ [] ∧ slash ∉ c ∧ EndsPart rest := by
  refine ⟨unread.takeWhile (· ≠ slash), unread.dropWhile (· ≠ slash),
    List.takeWhile_append_dropWhile.symm, ?_, ?_, ?_⟩
  · obtain ⟨x, unread, rfl⟩ := List.exists_cons_of_ne_nil hne
    have hx : x ≠ slash := fun heq => hhead (by rw [heq, List.head?_cons])
    rw [List.takeWhile_cons_of_pos (by simpa using hx)]
    exact List.cons_ne_nil _ _
  · exact fun hmem => by simpa using List.mem_takeWhile_imp hmem
  · intro c hc
    have hfirst := List.head?_dropWhile_not (· ≠ slash) unread
    rw [Option.mem_def.mp hc] at hfirst
    simpa using hfirst

/-- **The main loop**: it keeps what the reference keeps; behind the last component the separator is
missing if that is the end of the text. -/
theorem Head.parts_spec {unread : Bytes} (h : Head n absolute names ups s unread)
    (hhead : unread.head? ≠ some slash) (hk : n < k) (turns : ℕ) (hturns : unread.length < turns) :
    ∃ s' limit pre, s.parts absolute k turns = .ok s' ∧ At n limit s' pre [] ∧
      pre ++ (if keepsLast dot absolute (stack names ups) (unread.splitOn slash) then [slash] else [])
        = keptText absolute
          ((unread.splitOn slash).foldl (visit dot absolute) (stack names ups)) := by
  induction turns generalizing s unread names ups with
  | zero => omega
  | succ turns ih =>
    rw [Cursors.parts, h.cursors.head, Access.ok_bind]
    by_cases hempty : unread = []
    · subst hempty
      refine ⟨s, _, _, rfl, h.cursors, ?_⟩
      rw [List.splitOn_nil, if_neg (by simp [keepsLast])]
      simp [visit]
    obtain ⟨c, rest, rfl, hnil, hsep, hends⟩ := exists_part hempty hhead
    obtain ⟨x, c, rfl⟩ := List.exists_cons_of_ne_nil hnil
    have hx : x ≠ 0 := h.nul x (by simp)
    obtain ⟨s₁, names₁, ups₁, limit₁, pre₁, hpart, h₁, hstack, hresolved, hlimit, hwritten⟩ :=
      h.turn hnil hsep hends hk
    have hlength := h₁.unread_le
    obtain ⟨s₂, hskip, h₂⟩ := h₁.skipSeparators_spec (show (rest.drop 1).length < k by omega)
    show ∃ s' limit pre, (if x = 0 then _ else _) = _ ∧ _
    rw [if_neg hx, hpart, Access.ok_bind, hskip, Access.ok_bind]
    cases rest with
    | nil =>
      -- the text ends with the part
      rw [List.append_nil] at hturns ⊢
      obtain ⟨turns, rfl⟩ : ∃ m, turns = m + 1 := ⟨turns - 1, by
        rw [List.length_cons] at hturns
        omega⟩
      refine ⟨s₂, limit₁, pre₁, ?_, h₂, ?_⟩
      · rw [Cursors.parts, h₂.head]
        rfl
      · rw [List.splitOn_eq_singleton hsep, List.foldl_cons, List.foldl_nil, ← hstack, ← hwritten]
        simp
    | cons d rest =>
      obtain rfl := hends d rfl
      have hhead' : (rest.dropWhile (· = slash)).head? ≠ some slash := by
        intro heq
        have hfirst := List.head?_dropWhile_not (· = slash) rest
        rw [heq] at hfirst
        simp at hfirst
      have hshort := (List.dropWhile_suffix (· = slash) (l := rest)).length_le
      rw [if_neg (by simp), List.append_nil] at hwritten
      have hhead₂ : Head n absolute names₁ ups₁ s₂ (rest.dropWhile (· = slash)) := by
        refine ⟨hresolved, ?_, ?_⟩
        · rw [← hlimit (List.cons_ne_nil _ _), ← hwritten]
          exact h₂
        · intro y hy
          have hmem := (List.dropWhile_suffix (· = slash)).subset hy
          exact h.nul y (List.mem_append_right _ (List.mem_cons_of_mem _ hmem))
      rw [List.length_append, List.length_cons, List.length_cons] at hturns
      obtain ⟨s', limit', pre', hparts, h', hpre⟩ := ih hhead₂ hhead' (by omega)
      refine ⟨s', limit', pre', hparts, h', ?_⟩
      rw [keepsLast_append_sep hsep, List.splitOn_append_cons_self_of_not_mem hsep, List.foldl_cons,
        ← hstack, ← keepsLast_dropWhile, hpre, ← foldl_components, components_dropWhile,
        foldl_components]

end

/-! ### What is written -/

/-- The kept components, each with a separator behind it, but for the last if it ends the path. -/
def written (p : Bytes) : Bytes :=
  let text := keptText (isAbsolutePath p) (kept slash dot p)
  if keepsLast dot (isAbsolutePath p) [] (p.splitOn slash) then text.dropLast else text

theorem eq_written {p pre : Bytes}
    (h : pre ++ (if keepsLast dot (isAbsolutePath p) [] (p.splitOn slash) then [slash] else [])
      = keptText (isAbsolutePath p) ((p.splitOn slash).foldl (visit dot (isAbsolutePath p)) [])) :
    pre = written p := by
  rw [← foldl_components] at h
  rw [written, show kept slash dot p = (components slash dot p).foldl (resolve dot (isAbsolutePath p)) [] from rfl,
    ← h]
  split_ifs
  · exact List.dropLast_concat.symm
  · exact (List.append_nil pre).symm

/-- **The rewriting**: it ends, and leaves `written` in front of `dst`. -/
theorem rewrite_spec {p : Bytes} (hp : ∀ c ∈ p, c ≠ 0) :
    ∃ s limit, rewrite p = .ok s ∧ At p.length limit s (written p) [] := by
  have hinit : At p.length 0 ⟨p, 0, 0, 0, []⟩ [] p :=
    ⟨rfl, Nat.zero_le _, le_rfl, rfl, rfl, rfl, by simp⟩
  rw [rewrite, hinit.head, Access.ok_bind]
  by_cases habs : p.head? = some slash
  · obtain ⟨q, rfl⟩ := List.head?_eq_some_iff.mp habs
    obtain ⟨s₁, hput, -, -, h₁⟩ := hinit.put
    obtain ⟨s₂, hskip, h₂⟩ := h₁.skipSeparators_spec (k := (slash :: q).length + 1) (by
      rw [List.length_cons]
      omega)
    have hhead : Head (slash :: q).length true [] 0 { s₂ with backtrackLimit := s₂.dst }
        (q.dropWhile (· = slash)) := by
      refine ⟨⟨by simp, fun _ => rfl⟩, ?_, ?_⟩
      · have hlimit := h₂.setLimit s₂.dst
        rw [h₂.dst_eq] at hlimit ⊢
        exact hlimit
      · intro c hc
        exact hp c (List.mem_cons_of_mem _ ((List.dropWhile_suffix _).subset hc))
    have hfirst : (q.dropWhile (· = slash)).head? ≠ some slash := by
      intro heq
      have hnot := List.head?_dropWhile_not (· = slash) q
      rw [heq] at hnot
      simp at hnot
    have hshort := (List.dropWhile_suffix (· = slash) (l := q)).length_le
    obtain ⟨s', limit, pre, hparts, h', hpre⟩ := hhead.parts_spec hfirst
      (k := (slash :: q).length + 1) (by omega) ((slash :: q).length + 1) (by
        rw [List.length_cons]
        omega)
    have hsplit : ([] ++ slash :: q).splitOn slash = [] :: q.splitOn slash :=
      List.splitOn_append_cons_self_of_not_mem List.not_mem_nil q
    rw [← foldl_components, components_dropWhile, foldl_components, keepsLast_dropWhile] at hpre
    have hwritten : pre = written (slash :: q) := by
      apply eq_written
      rw [show slash :: q = [] ++ slash :: q from rfl, keepsLast_append_sep (by simp), hsplit]
      exact hpre
    refine ⟨s', limit, ?_, hwritten ▸ h'⟩
    show (((if slash = slash then _ else _ : Access Cursors)) >>= _) = _
    rw [if_pos rfl, hput, Access.ok_bind, hskip]
    exact hparts
  · have hrooted : isAbsolutePath p = false := decide_eq_false habs
    have hhead : Head p.length false [] 0 ⟨p, 0, 0, 0, []⟩ p :=
      ⟨⟨by simp, fun _ => rfl⟩, hinit, hp⟩
    obtain ⟨s', limit, pre, hparts, h', hpre⟩ := hhead.parts_spec habs
      (k := p.length + 1) (by omega) (p.length + 1) (by omega)
    have hwritten : pre = written p := by
      apply eq_written
      rw [hrooted]
      exact hpre
    have hno : (p ++ [0]).headD 0 ≠ slash := by
      cases p with
      | nil => decide
      | cons x p => exact fun heq => habs (congrArg some heq)
    refine ⟨s', limit, ?_, hwritten ▸ h'⟩
    rw [if_neg hno, Access.ok_bind, decide_eq_false hno]
    exact hparts

/-! ### What is made of it -/

/-- Without a separator at the end; a dot if there is nothing. -/
def trimmed (text : Bytes) : Bytes :=
  if text = [] then [dot]
  else if 1 < text.length ∧ text.getLast? = some slash then text.dropLast
  else text

/-- **Trimming gives the normal form.** -/
theorem trimmed_written (p : Bytes) : trimmed (written p) = normalForm slash dot p := by
  have hmem : ∀ c ∈ (kept slash dot p).reverse, c ≠ [] ∧ c ≠ [dot] ∧ slash ∉ c :=
    fun c hc => mem_components (mem_components_of_mem_kept (List.mem_reverse.mp hc))
  by_cases hkept : kept slash dot p = []
  · -- nothing but a root, if that
    have hlast : keepsLast dot (isAbsolutePath p) [] (p.splitOn slash) = false := by
      rw [Bool.eq_false_iff]
      intro hlast
      refine foldl_visit_ne_nil hlast ?_
      rw [← foldl_components]
      exact hkept
    have hroot : isRooted slash p = isAbsolutePath p := rfl
    rw [written, hlast, hkept, normalForm, hkept, hroot]
    cases isAbsolutePath p with
    | true => rfl
    | false => rfl
  · have hcs : (kept slash dot p).reverse ≠ [] := by simpa using hkept
    have hne := render_ne_nil (isAbsolutePath p) hmem hcs
    have htext : keptText (isAbsolutePath p) (kept slash dot p)
        = render slash (isAbsolutePath p) (kept slash dot p).reverse ++ [slash] := by
      rw [keptText, render, flatMap_append_sep hcs, List.append_assoc]
    have hnormal : normalForm slash dot p
        = render slash (isAbsolutePath p) (kept slash dot p).reverse := if_neg hne
    rw [written, htext, hnormal]
    cases keepsLast dot (isAbsolutePath p) [] (p.splitOn slash) with
    | true =>
      rw [if_pos rfl, List.dropLast_concat, trimmed, if_neg hne,
        if_neg fun hno => getLast?_render (isAbsolutePath p) hmem hcs hno.2]
    | false =>
      have hpos := List.length_pos_iff.mpr hne
      rw [if_neg (by decide), trimmed, if_neg (by simp), if_pos, List.dropLast_concat]
      refine ⟨?_, List.getLast?_concat⟩
      rw [List.length_append, List.length_singleton]
      omega

/-- At most one byte is trimmed off. -/
theorem length_written_le (p : Bytes) : (written p).length ≤ (normalForm slash dot p).length + 1 := by
  rw [← trimmed_written, trimmed]
  split_ifs with hnil hlast
  · rw [hnil]
    exact Nat.zero_le _
  · rw [List.length_dropLast]
    omega
  · omega

theorem length_normalForm_le (p : Bytes) :
    (normalForm slash dot p).length ≤ max 1 (written p).length := by
  rw [← trimmed_written, trimmed]
  split_ifs with hnil hlast
  · exact le_max_left _ _
  · rw [List.length_dropLast]
    omega
  · exact le_max_right _ _

@[simp] theorem Failure.ok_bind {α β : Type} (a : α) (f : α → Except Failure β) :
    (Except.ok a >>= f) = f a := rfl

theorem resize_of_le {path : Bytes} {n : ℕ} (h : n ≤ path.length) :
    resize path n = .ok (path.take n) := by
  rw [resize, if_neg (by omega), Int.toNat_natCast, Nat.sub_eq_zero_of_le h, List.replicate_zero,
    List.append_nil]

/-- The result has the length that was asked for. -/
theorem length_of_resize {path q : Bytes} {n : ℤ} (h : resize path n = .ok q) :
    (q.length : ℤ) = n := by
  rw [resize] at h
  split_ifs at h with hn
  rw [← Except.ok.inj h, List.length_append, List.length_take, List.length_replicate]
  omega

/-- **As long as an `int` can hold the length**, the result is the normal form. -/
theorem cleanPath_short {p : Bytes} (hp : ∀ c ∈ p, c ≠ 0) (hshort : (written p).length < 2 ^ 31) :
    cleanPath p = .ok (normalForm slash dot p) := by
  obtain ⟨s, limit, hrewrite, hat⟩ := rewrite_spec hp
  have hdst := hat.dst_eq
  have hlength := hat.length
  have h2 := hat.src_le
  have h3 := hat.dst_le
  have hint : (Int32.ofNat s.dst).toInt = s.dst := Int32.toInt_ofNat_of_lt (by omega)
  rw [cleanPath, hrewrite]
  show (if (Int32.ofNat s.dst).toInt ≠ 0 then _ else _) = _
  rw [hint, ← trimmed_written, trimmed]
  by_cases hnil : written p = []
  · rw [hnil, List.length_nil] at hdst
    rw [if_neg (by omega), if_pos hnil]
  have hpos := List.length_pos_iff.mpr hnil
  rw [if_pos (by omega), if_neg hnil]
  by_cases hlong : 1 < (written p).length
  · obtain ⟨l, c, hl⟩ := List.eq_nil_or_concat' (written p) |>.resolve_left hnil
    have hread : readByte s.path ((s.dst : ℤ) - 1).toNat = .ok c := by
      obtain ⟨hbefore, hd⟩ := before_spec (hat.written.trans hl) (by omega)
      rw [Cursors.before, hd] at hbefore
      rw [show ((s.dst : ℤ) - 1).toNat = l.length by omega]
      exact hbefore
    rw [if_pos (by omega), hread]
    by_cases hc : c = slash
    · subst hc
      have htake : s.path.take (s.dst - 1) = (written p).dropLast := by
        have hcut := congrArg (List.take (s.dst - 1)) hat.written
        rw [List.take_take, Nat.min_eq_left (by omega)] at hcut
        rw [hcut, List.dropLast_eq_take, hdst]
      rw [if_pos ⟨hlong, by rw [hl, List.getLast?_concat]⟩, ← htake]
      show resize s.path (if slash = slash then (s.dst : ℤ) - 1 else s.dst) = _
      rw [if_pos rfl, show (s.dst : ℤ) - 1 = ((s.dst - 1 : ℕ) : ℤ) by omega]
      exact resize_of_le (by omega)
    · rw [if_neg (by rw [hl, List.getLast?_concat]; exact fun hno => hc (Option.some.inj hno.2)),
        ← hat.written]
      show resize s.path (if c = slash then (s.dst : ℤ) - 1 else s.dst) = _
      rw [if_neg hc]
      exact resize_of_le (by omega)
  · rw [if_neg (by omega), if_neg fun hno => hlong hno.1, ← hat.written, Failure.ok_bind]
    exact resize_of_le (by omega)

/-- **From there on** it is not. -/
theorem cleanPath_long {p : Bytes} (hp : ∀ c ∈ p, c ≠ 0) (hlong : 2 ^ 31 ≤ (written p).length) :
    cleanPath p ≠ .ok (normalForm slash dot p) := by
  obtain ⟨s, limit, hrewrite, hat⟩ := rewrite_spec hp
  have hdst := hat.dst_eq
  have hnormal := length_written_le p
  have hlt := (Int32.ofNat s.dst).toInt_lt
  have hmod : (Int32.ofNat s.dst).toInt = (s.dst : ℤ).bmod (2 ^ 32) := Int32.toInt_ofNat'
  have hfirst : s.dst = 2 ^ 31 → (Int32.ofNat s.dst).toInt < 0 := by
    intro h
    rw [h]
    decide
  rw [cleanPath, hrewrite]
  show (if (Int32.ofNat s.dst).toInt ≠ 0 then _ else _) ≠ _
  generalize (Int32.ofNat s.dst).toInt = pathLength at hlt hfirst
  -- no result is as long as the normal form
  have hno : ∀ n ≤ pathLength, resize s.path n ≠ .ok (normalForm slash dot p) := by
    intro n hn hresize
    have hlength := length_of_resize hresize
    have hfirst' := mt hfirst (by omega)
    omega
  by_cases hzero : pathLength = 0
  · rw [if_neg (not_not.mpr hzero)]
    intro heq
    have hlength := congrArg List.length (Except.ok.inj heq)
    rw [List.length_singleton] at hlength
    omega
  rw [if_pos hzero]
  by_cases hone : 1 < pathLength
  · rw [if_pos hone]
    cases readByte s.path (pathLength - 1).toNat with
    | error e => exact fun heq => by cases heq
    | ok c =>
      show resize s.path (if c = slash then pathLength - 1 else pathLength) ≠ _
      split_ifs
      · exact hno _ (by omega)
      · exact hno _ le_rfl
  · rw [if_neg hone]
    exact hno _ le_rfl

/-- **`CleanPath` is the lexical normalisation.**  For every path without a NUL the rewriting ends and
writes at no position that it has not read; and the result is the normal form, and is not changed by
cleaning it again, exactly if what is written, up to the separator that is then dropped, has fewer than
`2 ^ 31` bytes. -/
theorem cleanPath_normalizes_iff (p : Bytes) (hp : ∀ c ∈ p, c ≠ 0) :
    (∃ s, rewrite p = .ok s ∧ s.dst ≤ s.src ∧ ∀ w ∈ s.writes, w.1 ≤ w.2) ∧
    ((cleanPath p = .ok (normalForm slash dot p) ∧ ∀ q, cleanPath p = .ok q → cleanPath q = .ok q) ↔
      (written p).length < 2 ^ 31) := by
  obtain ⟨s, limit, hrewrite, hat⟩ := rewrite_spec hp
  refine ⟨⟨s, hrewrite, hat.dst_le, hat.writes⟩, fun h => ?_, fun hshort => ?_⟩
  · by_contra hlong
    exact cleanPath_long hp (not_lt.mp hlong) h.1
  have hclean := cleanPath_short hp hshort
  refine ⟨hclean, fun q hq => ?_⟩
  obtain rfl : normalForm slash dot p = q := Except.ok.inj (hclean.symm.trans hq)
  have hnul : ∀ c ∈ normalForm slash dot p, c ≠ 0 := by
    intro c hc
    rcases mem_normalForm hc with rfl | rfl | hc
    · decide
    · decide
    · exact hp c hc
  -- the second time no more is written than is there
  have hagain : (written (normalForm slash dot p)).length ≤ (normalForm slash dot p).length := by
    obtain ⟨s', limit', -, hat'⟩ := rewrite_spec hnul
    rw [← hat'.dst_eq]
    exact hat'.dst_le.trans hat'.src_le
  have hle := length_normalForm_le p
  rw [cleanPath_short hnul (by omega), normalForm_normalForm (by decide)]

/-- Dots, ups and doubled separators. -/
theorem cleanPath_normalizes_iff_small :
    (cleanPath [0x2f, 0x61, 0x2f, 0x2e, 0x2e, 0x2f, 0x2f, 0x62, 0x2f] = .ok [0x2f, 0x62]) ∧
      ∀ q, cleanPath [0x2f, 0x61, 0x2f, 0x2e, 0x2e, 0x2f, 0x2f, 0x62, 0x2f] = .ok q →
        cleanPath q = .ok q :=
  (cleanPath_normalizes_iff [0x2f, 0x61, 0x2f, 0x2e, 0x2e, 0x2f, 0x2f, 0x62, 0x2f] (by simp)).2.mpr
    (by decide)

/-- A path of one name is its normal form. -/
theorem written_of_name {c : Bytes} (h : Name slash dot c) :
    written c = c ∧ normalForm slash dot c = c := by
  have hrelative : isAbsolutePath c = false :=
    decide_eq_false fun hhead => h.sep_notMem (List.mem_of_mem_head? (Option.mem_def.mpr hhead))
  have hkept : kept slash dot c = [c] := by
    rw [kept, components_of_notMem h.sep_notMem, if_pos ⟨h.ne_nil, h.ne_dot⟩, List.foldl_cons,
      List.foldl_nil, resolve_cons h.ne_up]
  have hlast : keepsLast dot false [] [c] = true :=
    decide_eq_true ⟨h.ne_nil, h.ne_dot, resolve_cons h.ne_up false []⟩
  have hwritten : written c = c := by
    rw [written, hrelative, hkept, List.splitOn_eq_singleton h.sep_notMem, hlast, if_pos rfl,
      keptText_cons, List.dropLast_concat]
    rfl
  refine ⟨hwritten, ?_⟩
  rw [← trimmed_written, hwritten, trimmed, if_neg h.ne_nil,
    if_neg fun hno => h.sep_notMem (List.mem_of_getLast? hno.2)]

/-- A length that becomes a negative `int` stops `resize`. -/
theorem cleanPath_lengthError {p : Bytes} (hp : ∀ c ∈ p, c ≠ 0) (hlong : 2 ^ 31 ≤ (written p).length)
    (hlt : (written p).length < 2 ^ 32) : cleanPath p = .error .lengthError := by
  obtain ⟨s, limit, hrewrite, hat⟩ := rewrite_spec hp
  have hdst := hat.dst_eq
  have hneg : (Int32.ofNat s.dst).toInt < 0 := by
    rw [Int32.toInt_ofNat', Int.bmod_def, show Int32.size = 2 ^ 32 from rfl]
    omega
  rw [cleanPath, hrewrite]
  show (if (Int32.ofNat s.dst).toInt ≠ 0 then _ else _) = _
  rw [if_pos hneg.ne, if_neg (by omega), Failure.ok_bind, resize, if_pos hneg]

/-- **A path of `2 ^ 31` bytes**: the `int` is negative, and `resize` throws. -/
theorem cleanPath_too_long :
    cleanPath (List.replicate (2 ^ 31) 0x61) = .error .lengthError ∧
      cleanPath (List.replicate (2 ^ 31) 0x61)
        ≠ .ok (normalForm slash dot (List.replicate (2 ^ 31) 0x61)) := by
  have hletter : ∀ c ∈ List.replicate (2 ^ 31) (0x61 : UInt8), c = 0x61 :=
    fun c hc => List.eq_of_mem_replicate hc
  have hlength : (List.replicate (2 ^ 31) (0x61 : UInt8)).length = 2 ^ 31 := List.length_replicate
  generalize List.replicate (2 ^ 31) (0x61 : UInt8) = p at hletter hlength
  have hname : Name slash dot p := by
    refine ⟨?_, ?_, ?_, fun hmem => absurd (hletter _ hmem) (by decide)⟩
    · exact List.ne_nil_of_length_pos (by omega)
    · rintro rfl
      exact absurd (hletter dot List.mem_cons_self) (by decide)
    · rintro rfl
      exact absurd (hletter dot List.mem_cons_self) (by decide)
  have hwritten := (written_of_name hname).1
  have herror : cleanPath p = .error .lengthError := by
    refine cleanPath_lengthError (fun c hc => ?_) (by rw [hwritten, hlength])
      (by rw [hwritten, hlength]; decide)
    rw [hletter c hc]
    decide
  refine ⟨herror, ?_⟩
  rw [herror]
  exact fun heq => by cases heq

end LearnNetlib.Path
