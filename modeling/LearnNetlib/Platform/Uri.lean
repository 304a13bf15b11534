import LearnNetlib.Io.Path
import LearnNetlib.Strings.Scanner
import Mathlib.Data.List.TakeWhile

/-!
# `ParseURI` and `CreateURI`

* `parseUri`, `createUri` — the code of `base/platform/file_system.cc`;
* `getResult_schemeScanner_iff` — what the first chain of the scanner accepts: schemes of at least two
  characters;
* **`uri_round_trip`** — the parts of a URI make it up again, and proper parts are found again;
* **`parseUri_scheme_iff`** — schemes are found as documented, but for those of one letter.
-/

namespace LearnNetlib

open Strings LearnNetlib.Path

/-! ### The code -/

/-- What `ParseURI` returns through its pointers. -/
structure Uri where
  scheme : Bytes
  host : Bytes
  path : Bytes
  deriving Repr, DecidableEq

/-- `"://"`. -/
def authority : Bytes := [':'.toUInt8, slash, slash]

/-- The scanner that parses the scheme. -/
def schemeScanner (remaining : Bytes) : Scanner :=
  (((Scanner.new remaining).one .letter).many .letterDigitDot).stopCapture.oneLiteral authority

/-- `ParseURI`. -/
def parseUri (remaining : Bytes) : Uri :=
  match (schemeScanner remaining).getResult with
  | none =>
    -- If there's no scheme, assume the entire string is a path.
    ⟨[], [], remaining⟩
  | some (remaining, scheme) =>
    match ((Scanner.new remaining).scanUntil slash).getResult with
    | none =>
      -- No path, so the rest of the URI is the host.
      ⟨scheme, remaining, []⟩
    | some (path, host) => ⟨scheme, host, path⟩

/-- `CreateURI`. -/
def createUri (scheme host path : Bytes) : Bytes :=
  if scheme = [] then path else scheme ++ authority ++ host ++ path

/-! ### The scheme -/

/-- `[a-zA-Z][0-9a-zA-Z.]*`, as the comment in `ParseURI` has it. -/
def IsScheme : Bytes → Prop
  | [] => False
  | c :: s => Scanner.isLetter c = true ∧ ∀ x ∈ s, CharClass.letterDigitDot.matches x = true

theorem IsScheme.matches {s : Bytes} (h : IsScheme s) :
    ∀ x ∈ s, CharClass.letterDigitDot.matches x = true := by
  cases s with
  | nil => exact h.elim
  | cons c s =>
    refine List.forall_mem_cons.mpr ⟨?_, h.2⟩
    rw [CharClass.matches, h.1]
    rfl

theorem IsScheme.ne_nil {s : Bytes} (h : IsScheme s) : s ≠ [] := by
  rintro rfl
  exact h

/-- A scheme ends where the characters of its class end. -/
theorem takeWhile_scheme {s : Bytes} (hs : ∀ x ∈ s, CharClass.letterDigitDot.matches x = true)
    (rest : Bytes) :
    (s ++ (authority ++ rest)).takeWhile CharClass.letterDigitDot.matches = s := by
  rw [List.takeWhile_append_of_pos hs]
  show s ++ ((':'.toUInt8 :: slash :: slash :: rest).takeWhile _) = s
  rw [List.takeWhile_cons_of_neg (by decide), List.append_nil]

theorem dropWhile_scheme {s : Bytes} (hs : ∀ x ∈ s, CharClass.letterDigitDot.matches x = true)
    (rest : Bytes) :
    (s ++ (authority ++ rest)).dropWhile CharClass.letterDigitDot.matches = authority ++ rest := by
  rw [List.dropWhile_append_of_pos hs]
  show (':'.toUInt8 :: slash :: slash :: rest).dropWhile _ = _
  exact List.dropWhile_cons_of_neg (by decide)

/-- Two characters that may begin a scheme, and what the scanner makes of the text behind them. -/
theorem getResult_schemeScanner_cons {c d : UInt8} (hc : CharClass.letter.matches c = true)
    (hd : CharClass.letterDigitDot.matches d = true) (t : Bytes) :
    (schemeScanner (c :: d :: t)).getResult
      = if authority <+: t.dropWhile CharClass.letterDigitDot.matches then
          some ((t.dropWhile CharClass.letterDigitDot.matches).drop 3,
            c :: d :: t.takeWhile CharClass.letterDigitDot.matches)
        else none := by
  have hone : (Scanner.new (c :: d :: t)).one .letter = ⟨c :: d :: t, 1, 0, none, false⟩ :=
    Scanner.one_cons_pos rfl hc
  have htwo : (⟨c :: d :: t, 1, 0, none, false⟩ : Scanner).one .letterDigitDot
      = ⟨c :: d :: t, 2, 0, none, false⟩ := Scanner.one_cons_pos rfl hd
  obtain ⟨n, hn⟩ : ∃ n, Scanner.anyLoop .letterDigitDot t = n := ⟨_, rfl⟩
  have hstopped : ((⟨c :: d :: t, 2, 0, none, false⟩ : Scanner).any .letterDigitDot).stopCapture
      = ⟨c :: d :: t, 2 + n, 0, some (2 + n), false⟩ := hn ▸ rfl
  have hrest : Scanner.rest ⟨c :: d :: t, 2 + n, 0, some (2 + n), false⟩
      = t.dropWhile CharClass.letterDigitDot.matches := by
    rw [← hstopped]
    exact Scanner.rest_any .letterDigitDot ⟨c :: d :: t, 2, 0, none, false⟩
  have hcapture : (c :: d :: t).take (2 + n)
      = c :: d :: t.takeWhile CharClass.letterDigitDot.matches := by
    rw [← hn, Scanner.anyLoop_eq, Nat.add_comm, List.take_succ_cons, List.take_succ_cons,
      ← List.prefix_iff_eq_take.mp (List.takeWhile_prefix _)]
  rw [schemeScanner, hone, Scanner.many, htwo, hstopped, Scanner.oneLiteral, hrest]
  by_cases hlit : authority <+: t.dropWhile CharClass.letterDigitDot.matches
  · rw [if_pos (List.isPrefixOf_iff_prefix.mpr hlit), if_pos hlit, Scanner.getResult, if_neg (by simp),
      Scanner.rest_advance, hrest]
    exact congrArg (fun capture => some (_, capture)) hcapture
  · rw [if_neg (mt List.isPrefixOf_iff_prefix.mp hlit), if_neg hlit]
    exact Scanner.getResult_of_error rfl

theorem getResult_schemeScanner_of_error {u : Bytes}
    (h : (((Scanner.new u).one .letter).many .letterDigitDot).error = true) :
    (schemeScanner u).getResult = none :=
  Scanner.getResult_of_error (Scanner.error_oneLiteral h)

/-- Without two such characters there is no result. -/
theorem exists_cons_of_getResult {u rest scheme : Bytes}
    (h : (schemeScanner u).getResult = some (rest, scheme)) :
    ∃ c d t, u = c :: d :: t ∧ CharClass.letter.matches c = true ∧
      CharClass.letterDigitDot.matches d = true := by
  have hgood : ¬ (((Scanner.new u).one .letter).many .letterDigitDot).error = true := by
    intro herror
    rw [getResult_schemeScanner_of_error herror] at h
    cases h
  cases u with
  | nil => exact absurd rfl hgood
  | cons c t =>
    have hrest : (Scanner.new (c :: t)).rest = c :: t := rfl
    by_cases hc : CharClass.letter.matches c = true
    · rw [Scanner.one_cons_pos hrest hc] at hgood
      cases t with
      | nil => exact absurd rfl hgood
      | cons d t =>
        by_cases hd : CharClass.letterDigitDot.matches d = true
        · exact ⟨c, d, t, rfl, hc, hd⟩
        · have hsecond : Scanner.rest ⟨c :: d :: t, 1, 0, none, false⟩ = d :: t := rfl
          refine absurd ?_ hgood
          show Scanner.error (Scanner.many _ ⟨c :: d :: t, 1, 0, none, false⟩) = true
          rw [Scanner.many, Scanner.one_cons_neg hsecond hd]
          rfl
    · rw [Scanner.one_cons_neg hrest hc] at hgood
      exact absurd (Scanner.error_many rfl) hgood

/-- **What the scanner takes for a scheme**: `Many` asks for one character after the letter. -/
theorem getResult_schemeScanner_iff (u rest scheme : Bytes) :
    (schemeScanner u).getResult = some (rest, scheme) ↔
      u = scheme ++ (authority ++ rest) ∧ IsScheme scheme ∧ 2 ≤ scheme.length := by
  constructor
  · intro h
    obtain ⟨c, d, t, rfl, hc, hd⟩ := exists_cons_of_getResult h
    rw [getResult_schemeScanner_cons hc hd] at h
    split_ifs at h with hlit
    obtain ⟨tail, htail⟩ := hlit
    rw [← htail, Option.some.injEq, Prod.mk.injEq] at h
    obtain ⟨rfl, rfl⟩ := h
    refine ⟨?_, ⟨hc, ?_⟩, ?_⟩
    · rw [List.cons_append, List.cons_append]
      show c :: d :: t = c :: d :: (t.takeWhile _ ++ (authority ++ tail))
      rw [htail, List.takeWhile_append_dropWhile]
    · intro x hx
      rcases List.mem_cons.mp hx with rfl | hx
      · exact hd
      · exact List.mem_takeWhile_imp hx
    · exact Nat.le_add_left 2 _
  · rintro ⟨rfl, hscheme, hlength⟩
    obtain ⟨c, s, rfl⟩ := List.exists_cons_of_ne_nil hscheme.ne_nil
    obtain ⟨d, s, rfl⟩ := List.exists_cons_of_ne_nil
      (show s ≠ [] from List.length_pos_iff.mp (Nat.le_of_succ_le_succ hlength))
    have hs : ∀ x ∈ s, CharClass.letterDigitDot.matches x = true :=
      fun x hx => hscheme.2 x (List.mem_cons_of_mem d hx)
    have hd : CharClass.letterDigitDot.matches d = true := hscheme.2 d List.mem_cons_self
    show (schemeScanner (c :: d :: (s ++ (authority ++ rest)))).getResult = _
    rw [getResult_schemeScanner_cons hscheme.1 hd, dropWhile_scheme hs, takeWhile_scheme hs,
      if_pos (List.prefix_append _ _)]
    rfl

/-! ### Parsing -/

theorem parseUri_of_none {u : Bytes} (h : (schemeScanner u).getResult = none) :
    parseUri u = ⟨[], [], u⟩ := by
  rw [parseUri, h]

/-- **What is parsed of a URI**, once the scanner finds the scheme. -/
theorem parseUri_append {scheme host path : Bytes} (hscheme : IsScheme scheme)
    (hlength : 2 ≤ scheme.length) (hhost : slash ∉ host) (hpath : path = [] ∨ path.head? = some slash) :
    parseUri (scheme ++ (authority ++ (host ++ path))) = ⟨scheme, host, path⟩ := by
  have hscan := (getResult_schemeScanner_iff _ (host ++ path) _).mpr ⟨rfl, hscheme, hlength⟩
  rw [parseUri, hscan]
  dsimp only
  rcases hpath with rfl | hpath
  · rw [List.append_nil, Scanner.getResult_scanUntil_of_notMem hhost]
  · obtain ⟨path, rfl⟩ := List.head?_eq_some_iff.mp hpath
    rw [Scanner.getResult_scanUntil_append hhost]

/-- Every string is a URI or all of it is the path. -/
theorem parseUri_cases (u : Bytes) :
    (∃ scheme host path, u = scheme ++ (authority ++ (host ++ path)) ∧ IsScheme scheme ∧
      2 ≤ scheme.length ∧ parseUri u = ⟨scheme, host, path⟩) ∨
    (schemeScanner u).getResult = none := by
  cases hscan : (schemeScanner u).getResult with
  | none => exact .inr rfl
  | some res =>
    obtain ⟨rest, scheme⟩ := res
    obtain ⟨rfl, hscheme, hlength⟩ := (getResult_schemeScanner_iff _ _ _).mp hscan
    refine .inl ?_
    by_cases hmem : slash ∈ rest
    · obtain ⟨host, path, rfl, hhost⟩ := List.eq_append_cons_of_mem hmem
      exact ⟨scheme, host, slash :: path, rfl, hscheme, hlength,
        parseUri_append hscheme hlength hhost (.inr rfl)⟩
    · refine ⟨scheme, rest, [], by rw [List.append_nil], hscheme, hlength, ?_⟩
      have hparse := parseUri_append hscheme hlength hmem (.inl rfl)
      rwa [List.append_nil] at hparse

/-- **The parts of any string make it up again, and the parts of a URI are found again.** -/
theorem uri_round_trip :
    (∀ u, createUri (parseUri u).scheme (parseUri u).host (parseUri u).path = u) ∧
    ∀ scheme host path, IsScheme scheme → 2 ≤ scheme.length → slash ∉ host →
      (path = [] ∨ path.head? = some slash) →
      parseUri (createUri scheme host path) = ⟨scheme, host, path⟩ := by
  constructor
  · intro u
    rcases parseUri_cases u with ⟨scheme, host, path, rfl, hscheme, -, hparse⟩ | hnone
    · rw [hparse, createUri, if_neg hscheme.ne_nil, List.append_assoc, List.append_assoc]
    · rw [parseUri_of_none hnone]
      exact if_pos rfl
  · intro scheme host path hscheme hlength hhost hpath
    rw [createUri, if_neg hscheme.ne_nil, List.append_assoc, List.append_assoc]
    exact parseUri_append hscheme hlength hhost hpath

/-- `ab://c/d`. -/
theorem uri_round_trip_host : parseUri (createUri [0x61, 0x62] [0x63] [0x2f, 0x64])
    = ⟨[0x61, 0x62], [0x63], [0x2f, 0x64]⟩ :=
  uri_round_trip.2 [0x61, 0x62] [0x63] [0x2f, 0x64] ⟨rfl, List.forall_mem_singleton.mpr rfl⟩
    (by decide) (by decide) (.inr rfl)

/-! ### Which schemes are found -/

/-- What the comment in `ParseURI` promises: a scheme of the documented form in front of `://` is
reported, and nothing else is. -/
def ReportsScheme (u : Bytes) : Prop :=
  ((parseUri u).scheme ≠ [] ↔ ∃ s, IsScheme s ∧ s ++ authority <+: u) ∧
  (∀ s, IsScheme s → s ++ authority <+: u → (parseUri u).scheme = s) ∧
  ((¬ ∃ s, IsScheme s ∧ s ++ authority <+: u) → parseUri u = ⟨[], [], u⟩)

/-- A string has one scheme at most. -/
theorem eq_of_scheme_prefix {s s' u : Bytes} (hs : IsScheme s) (hs' : IsScheme s')
    (h : s ++ authority <+: u) (h' : s' ++ authority <+: u) : s = s' := by
  obtain ⟨t, rfl⟩ := h
  obtain ⟨t', ht'⟩ := h'
  rw [List.append_assoc, List.append_assoc] at ht'
  rw [← takeWhile_scheme hs.matches t, ← ht', takeWhile_scheme hs'.matches]

/-- A scheme of two characters or more is found. -/
theorem scheme_of_prefix {s u : Bytes} (hs : IsScheme s) (hlength : 2 ≤ s.length)
    (h : s ++ authority <+: u) : (parseUri u).scheme = s := by
  rcases parseUri_cases u with ⟨scheme, host, path, rfl, hscheme, -, hparse⟩ | hnone
  · rw [hparse]
    refine eq_of_scheme_prefix hscheme hs ⟨host ++ path, ?_⟩ h
    rw [List.append_assoc]
  · obtain ⟨rest, rfl⟩ := h
    rw [List.append_assoc, (getResult_schemeScanner_iff _ rest _).mpr ⟨rfl, hs, hlength⟩] at hnone
    cases hnone

/-- **Schemes are reported as documented but for those of one letter**, which the second call of the
scanner, `Many`, does not let pass. -/
theorem parseUri_scheme_iff (u : Bytes) :
    ReportsScheme u ↔ ¬ ∃ c, Scanner.isLetter c = true ∧ c :: authority <+: u := by
  constructor
  · rintro ⟨-, hreport, -⟩ ⟨c, hc, hpre⟩
    have hs : IsScheme [c] := ⟨hc, List.forall_mem_nil _⟩
    have hscheme := hreport [c] hs hpre
    rcases parseUri_cases u with ⟨scheme, host, path, -, -, hlength, hparse⟩ | hnone
    · rw [hparse] at hscheme
      dsimp only at hscheme
      rw [hscheme] at hlength
      exact absurd hlength (Nat.not_succ_le_self 1)
    · rw [parseUri_of_none hnone] at hscheme
      cases hscheme
  · intro hshort
    have hlong : ∀ s, IsScheme s → s ++ authority <+: u → 2 ≤ s.length := by
      intro s hs hpre
      cases s with
      | nil => exact hs.elim
      | cons c s =>
        cases s with
        | nil => exact absurd ⟨c, hs.1, hpre⟩ hshort
        | cons d s => exact Nat.le_add_left 2 _
    have hfound : ∀ s, IsScheme s → s ++ authority <+: u → (parseUri u).scheme = s :=
      fun s hs hpre => scheme_of_prefix hs (hlong s hs hpre) hpre
    have hnot : (¬ ∃ s, IsScheme s ∧ s ++ authority <+: u) → parseUri u = ⟨[], [], u⟩ := by
      intro hnone
      rcases parseUri_cases u with ⟨scheme, host, path, rfl, hscheme, -, -⟩ | hres
      · refine absurd ⟨scheme, hscheme, host ++ path, ?_⟩ hnone
        rw [List.append_assoc]
      · exact parseUri_of_none hres
    refine ⟨⟨?_, ?_⟩, hfound, hnot⟩
    · intro hne
      by_contra hnone
      rw [hnot hnone] at hne
      exact hne rfl
    · rintro ⟨s, hs, hpre⟩
      rw [hfound s hs hpre]
      exact hs.ne_nil

/-- `a://b`. -/
theorem parseUri_letter_scheme : ¬ ReportsScheme [0x61, 0x3a, 0x2f, 0x2f, 0x62] := by
  rintro ⟨-, hreport, -⟩
  have hscheme := hreport [0x61] ⟨rfl, List.forall_mem_nil _⟩ ⟨[0x62], rfl⟩
  revert hscheme
  decide

end LearnNetlib
