import LearnNetlib.Base.Bytes
import Mathlib.Data.List.TakeWhile

/-!
# `Split` and `Join`

* `split`, `join` — the code of `base/strings/str_util.h`; the separator of `Join` is a C string;
* `splitLoop_eq` — the loop, from any token on, splits what is left of the text as `List.splitOn` does;
* **`split_eq`**, **`join_eq`** — so the two functions are `splitOn` and `intercalate`, the empty text and
  the character NUL apart;
* **`split_join`** — joining undoes splitting, and splitting undoes joining.
-/

namespace LearnNetlib.Strings

/-! ### The code -/

/-- `AllowEmpty`. -/
def allowEmpty (_ : Bytes) : Bool := true

/-- `SkipEmpty`. -/
def skipEmpty (sp : Bytes) : Bool := !sp.isEmpty

/-- The loop of `Split` for the next `n` positions from `i` on. -/
def splitLoop (text : Bytes) (delim : UInt8) (p : Bytes → Bool) : ℕ → ℕ → ℕ → List Bytes → List Bytes
  | 0, _, _, result => result
  | n + 1, i, tokenStart, result =>
    if i = text.length ∨ text[i]? = some delim then
      let token := (text.drop tokenStart).take (i - tokenStart)
      splitLoop text delim p n (i + 1) (i + 1) (if p token then result ++ [token] else result)
    else splitLoop text delim p n (i + 1) tokenStart result

/-- `Split(text, delim, p)`. -/
def splitIf (text : Bytes) (delim : UInt8) (p : Bytes → Bool) : List Bytes :=
  if text ≠ [] then splitLoop text delim p (text.length + 1) 0 0 [] else []

/-- `Split(text, delim)`. -/
def split (text : Bytes) (delim : UInt8) : List Bytes := splitIf text delim allowEmpty

/-- What is read as a C string: the characters up to the first NUL. -/
def cString (p : Bytes) : Bytes := p.takeWhile fun c => c ≠ 0

/-- The loop of `Join`. -/
def joinLoop (sep : Bytes) : List Bytes → Bytes → Bool → Bytes
  | [], result, _ => result
  | x :: s, result, first =>
    joinLoop sep s (result ++ (if first then [] else cString sep) ++ x) false

/-- `Join(s, sep)`; the argument is what `sep` points at. -/
def join (s : List Bytes) (sep : Bytes) : Bytes := joinLoop sep s [] true

/-! ### Splitting -/

section Loop

variable (text : Bytes) (delim : UInt8) (p : Bytes → Bool)

theorem filter_token (token : Bytes) (tokens result : List Bytes) :
    (if p token then result ++ [token] else result) ++ tokens.filter p
      = result ++ (token :: tokens).filter p := by
  by_cases hp : p token = true
  · rw [if_pos hp, List.filter_cons_of_pos hp, List.append_assoc, List.singleton_append]
  · rw [if_neg hp, List.filter_cons_of_neg hp]

/-- **The loop at the position `i`**, with the token that began at `tokenStart`. -/
theorem splitLoop_eq {rest token : Bytes} {i tokenStart : ℕ} (result : List Bytes)
    (htoken : text.drop tokenStart = token ++ rest) (hi : i = tokenStart + token.length)
    (hend : i + rest.length = text.length) (hdelim : delim ∉ token) :
    splitLoop text delim p (rest.length + 1) i tokenStart result
      = result ++ ((token ++ rest).splitOn delim).filter p := by
  induction rest generalizing i tokenStart token result with
  | nil =>
    have htake : (text.drop tokenStart).take (i - tokenStart) = token := by
      rw [htoken, hi, Nat.add_sub_cancel_left, List.take_left]
    rw [splitLoop, if_pos (.inl hend), htake, List.append_nil, List.splitOn_eq_singleton hdelim,
      ← filter_token, List.filter_nil, List.append_nil]
    rfl
  | cons c rest ih =>
    have htake : (text.drop tokenStart).take (i - tokenStart) = token := by
      rw [htoken, hi, Nat.add_sub_cancel_left, List.take_left]
    have hrest : text.drop i = c :: rest := by
      rw [hi, ← List.drop_drop, htoken, List.drop_left]
    have hread : text[i]? = some c := by
      rw [← List.head?_drop, hrest]
      rfl
    have hbehind : text.drop (i + 1) = rest := by
      rw [← List.drop_drop, hrest]
      rfl
    rw [List.length_cons] at hend
    rw [splitLoop, hread, List.length_cons]
    by_cases hc : c = delim
    · rw [if_pos (.inr (congrArg some hc)), htake, hc, List.splitOn_append_cons_self,
        List.splitOn_eq_singleton hdelim, List.singleton_append, ← filter_token]
      refine ih _ hbehind ?_ ?_ List.not_mem_nil
      · rfl
      · omega
    · have hnot : ¬ (i = text.length ∨ some c = some delim) := by
        rintro (h | h)
        · omega
        · exact hc (Option.some.inj h)
      rw [if_neg hnot, List.append_cons]
      refine ih result ?_ ?_ (by omega) ?_
      · rw [htoken, List.append_cons]
      · rw [List.length_append, List.length_singleton, hi]
        rfl
      · rw [List.mem_append, List.mem_singleton]
        rintro (h | h)
        · exact hdelim h
        · exact hc h.symm

/-- **`Split`**, token by token. -/
theorem splitIf_eq : splitIf text delim p = if text = [] then [] else (text.splitOn delim).filter p := by
  rw [splitIf]
  by_cases htext : text = []
  · rw [if_neg (not_not.mpr htext), if_pos htext]
  · rw [if_pos htext, if_neg htext]
    exact splitLoop_eq text delim p [] rfl rfl (Nat.zero_add _) List.not_mem_nil

end Loop

theorem split_eq (text : Bytes) (delim : UInt8) :
    split text delim = if text = [] then [] else text.splitOn delim := by
  have hall : (text.splitOn delim).filter allowEmpty = text.splitOn delim :=
    List.filter_eq_self.mpr fun _ _ => rfl
  rw [split, splitIf_eq, hall]

theorem split_ne {text : Bytes} (h : text ≠ []) (delim : UInt8) :
    split text delim = text.splitOn delim := by
  rw [split_eq, if_neg h]

/-- What is skipped. -/
theorem splitIf_skipEmpty (text : Bytes) (delim : UInt8) :
    splitIf text delim skipEmpty = (split text delim).filter fun token => token ≠ [] := by
  have hskip : skipEmpty = fun token : Bytes => decide (token ≠ []) := by
    funext token
    cases token <;> rfl
  rw [splitIf_eq, split_eq, apply_ite (List.filter _), hskip]
  rfl

theorem not_mem_of_mem_splitOn {text token : Bytes} {delim : UInt8} (h : token ∈ text.splitOn delim) :
    delim ∉ token := by
  induction text generalizing token with
  | nil =>
    rw [List.splitOn_nil, List.mem_singleton] at h
    rw [h]
    exact List.not_mem_nil
  | cons c text ih =>
    obtain ⟨first, tokens, hsplit⟩ := List.exists_cons_of_ne_nil (List.splitOn_ne_nil delim text)
    rw [List.splitOn_cons_eq_if_modifyHead, hsplit] at h
    rw [hsplit] at ih
    split_ifs at h with hc
    · rcases List.mem_cons.mp h with rfl | h
      · exact List.not_mem_nil
      · exact ih h
    · rw [List.modifyHead_cons, List.mem_cons] at h
      rcases h with rfl | h
      · rw [List.mem_cons, not_or]
        exact ⟨fun heq => hc (beq_iff_eq.mpr heq.symm), ih List.mem_cons_self⟩
      · exact ih (List.mem_cons_of_mem _ h)

theorem not_mem_of_mem_split {text token : Bytes} {delim : UInt8} (h : token ∈ split text delim) :
    delim ∉ token := by
  rw [split_eq] at h
  split_ifs at h
  · exact absurd h List.not_mem_nil
  · exact not_mem_of_mem_splitOn h

/-! ### Joining -/

theorem joinLoop_eq (sep : Bytes) (s : List Bytes) (result : Bytes) :
    joinLoop sep s result false = result ++ s.flatMap fun x => cString sep ++ x := by
  induction s generalizing result with
  | nil => rw [joinLoop, List.flatMap_nil, List.append_nil]
  | cons x s ih =>
    rw [joinLoop, ih, List.flatMap_cons]
    simp only [Bool.false_eq_true, if_false, List.append_assoc]

theorem intercalate_cons (sep x : Bytes) (s : List Bytes) :
    sep.intercalate (x :: s) = x ++ s.flatMap fun y => sep ++ y := by
  induction s generalizing x with
  | nil => rw [List.intercalate_singleton, List.flatMap_nil, List.append_nil]
  | cons y s ih => rw [List.intercalate_cons_cons, ih, List.flatMap_cons, List.append_assoc,
      List.append_assoc]

/-- **`Join`** puts the separator between the strings. -/
theorem join_eq (s : List Bytes) (sep : Bytes) : join s sep = (cString sep).intercalate s := by
  cases s with
  | nil => rfl
  | cons x s =>
    rw [join, joinLoop, joinLoop_eq, intercalate_cons]
    rfl

theorem cString_singleton {delim : UInt8} (hdelim : delim ≠ 0) : cString [delim, 0] = [delim] := by
  rw [cString, List.takeWhile_cons_of_pos (by simpa using hdelim)]
  rfl

theorem join_split (text : Bytes) {delim : UInt8} (hdelim : delim ≠ 0) :
    join (split text delim) [delim, 0] = text := by
  rw [join_eq, cString_singleton hdelim, split_eq]
  split_ifs with htext
  · rw [htext]
    rfl
  · exact List.intercalate_splitOn delim

theorem intercalate_ne_nil {sep : Bytes} (hsep : sep ≠ []) {s : List Bytes} (hne : s ≠ []) (hs : s ≠ [[]]) :
    sep.intercalate s ≠ [] := by
  obtain ⟨x, s, rfl⟩ := List.exists_cons_of_ne_nil hne
  rw [intercalate_cons]
  cases s with
  | nil =>
    intro h
    rw [List.flatMap_nil, List.append_nil] at h
    exact hs (congrArg (fun x => [x]) h)
  | cons y s =>
    intro h
    rw [List.flatMap_cons, List.append_assoc] at h
    exact hsep (List.append_eq_nil_iff.mp (List.append_eq_nil_iff.mp h).2).1

theorem split_join_of {s : List Bytes} {delim : UInt8} (hdelim : delim ≠ 0) (hne : s ≠ [])
    (hs : ∀ x ∈ s, delim ∉ x) (hempty : s ≠ [[]]) : split (join s [delim, 0]) delim = s := by
  rw [join_eq, cString_singleton hdelim,
    split_ne (intercalate_ne_nil (List.cons_ne_nil _ _) hne hempty)]
  exact List.splitOn_intercalate delim hs hne

/-- **Splitting and joining.** Tokens never hold the delimiter, and skipping the empty ones skips nothing
else; joining with a character other than NUL undoes splitting, and splitting undoes joining. -/
theorem split_join (delim : UInt8) :
    (∀ text, (∀ token ∈ split text delim, delim ∉ token) ∧
      splitIf text delim skipEmpty = (split text delim).filter fun token => token ≠ []) ∧
    (delim ≠ 0 → (∀ text, join (split text delim) [delim, 0] = text) ∧
      ∀ s : List Bytes, s ≠ [] → (∀ x ∈ s, delim ∉ x) → s ≠ [[]] →
        split (join s [delim, 0]) delim = s) := by
  refine ⟨?_, ?_⟩
  · intro text
    exact ⟨fun _ => not_mem_of_mem_split, splitIf_skipEmpty text delim⟩
  · intro hdelim
    exact ⟨fun text => join_split text hdelim, fun s hne hs hempty => split_join_of hdelim hne hs hempty⟩

/-- `",a,,b"`. -/
theorem split_join_comma :
    split (join [[], [97], [], [98]] [44, 0]) 44 = [[], [97], [], [98]] :=
  ((split_join 44).2 (by decide)).2 _ (by decide) (by decide) (by decide)

/-- A NUL character as a C string is the empty string, so `"a\0b"` is not joined again. -/
theorem join_split_nul : join (split [97, 0, 98] 0) [0, 0] ≠ [97, 0, 98] := by
  decide

end LearnNetlib.Strings
