import LearnNetlib.Base.CType
import LearnNetlib.Strings.Split
import Mathlib.Data.Finset.Lattice.Lemmas
import Mathlib.Logic.Function.Basic

/-!
# `INIReader`

What is stored under a section and a name.  The two are made one key, with `=` between them.

* `makeKey`, `valueHandler`, `set`, `getString` — the code of `base/ini/ini_reader.cc`; `Set` hands C strings
  to the handler of the parser;
* `lastSet` — what a store of pairs would hold;
* `makeKey_eq_iff` — keys of pairs without `=` belong to one pair each;
* `getSections_sets`, `getFields_sets` — what is listed;
* `sets_answers` — as long as there are such pairs only, the reader answers as the store does;
* **`set_independent_iff`** — and it does so after every call only then.
-/

namespace LearnNetlib.Ini

open Strings CType

/-! ### The code -/

/-- `Lowercase`. -/
def lowercase (s : Bytes) : Bytes := s.map tolower

/-- `INIReader`, without what it keeps of the file. -/
structure INIReader where
  values : Bytes → Option Bytes
  sections : Finset Bytes
  fields : Bytes → Option (Finset Bytes)

/-- `MakeKey`. -/
def makeKey (sect name : Bytes) : Bytes := lowercase (sect ++ '='.toUInt8 :: name)

namespace INIReader

/-- A reader of no file. -/
def empty : INIReader := ⟨fun _ => none, ∅, fun _ => none⟩

/-- `GetString`. -/
def getString (reader : INIReader) (sect name defaultValue : Bytes) : Bytes :=
  (reader.values (makeKey sect name)).getD defaultValue

/-- `GetSections`. -/
def getSections (reader : INIReader) : Finset Bytes := reader.sections

/-- `GetFields`. -/
def getFields (reader : INIReader) (sect : Bytes) : Finset Bytes :=
  (reader.fields (lowercase sect)).getD ∅

/-- `ValueHandler`; what is not in a map is made when it is asked for. -/
def valueHandler (reader : INIReader) (sect name value : Bytes) : INIReader :=
  let key := makeKey sect name
  let old := (reader.values key).getD []
  let old := if old.length > 0 then old ++ ['\n'.toUInt8] else old
  let sectionKey := lowercase sect
  let fieldSet := (reader.fields sectionKey).getD ∅
  { values := Function.update reader.values key (some (old ++ value))
    sections := insert sect reader.sections
    fields := Function.update reader.fields sectionKey (some (insert name fieldSet)) }

/-- `Set`. -/
def set (reader : INIReader) (sect name value : Bytes) : INIReader :=
  let key := makeKey sect name
  let reader := { reader with values := Function.update reader.values key (some []) }
  reader.valueHandler (cString sect) (cString name) (cString value)

end INIReader

/-! ### What it is for -/

/-- A call of `Set`. -/
structure Setting where
  sect : Bytes
  name : Bytes
  value : Bytes
  deriving Repr, DecidableEq

/-- The reader after calls of `Set`. -/
def sets (history : List Setting) : INIReader :=
  history.foldl (fun reader op => reader.set op.sect op.name op.value) .empty

/-- The call is for this section and this name, ignoring case. -/
def Setting.For (sect name : Bytes) (op : Setting) : Prop :=
  lowercase op.sect = lowercase sect ∧ lowercase op.name = lowercase name

instance (sect name : Bytes) (op : Setting) : Decidable (op.For sect name) :=
  inferInstanceAs (Decidable (_ ∧ _))

/-- What was set last for a section and a name. -/
def lastSet (history : List Setting) (sect name : Bytes) : Option Bytes :=
  ((history.filter fun op => op.For sect name).getLast?).map Setting.value

/-- Every question is answered as by a store of pairs. -/
def Answers (history : List Setting) : Prop :=
  ∀ sect name defaultValue,
    (sets history).getString sect name defaultValue = (lastSet history sect name).getD defaultValue

/-- Every question is answered so after each of the calls. -/
def Independent (history : List Setting) : Prop := ∀ done, done <+: history → Answers done

/-- A call without `=` in its section or its name, and without NUL. -/
structure Setting.Plain (op : Setting) : Prop where
  sect : '='.toUInt8 ∉ op.sect
  name : '='.toUInt8 ∉ op.name
  sectNul : 0 ∉ op.sect
  nameNul : 0 ∉ op.name
  valueNul : 0 ∉ op.value

/-- Whether the call is plain. -/
def Setting.plain (op : Setting) : Bool :=
  op.sect.all (fun c => c != '='.toUInt8 && c != 0) && op.name.all (fun c => c != '='.toUInt8 && c != 0) &&
    op.value.all fun c => c != 0

theorem Setting.plain_iff (op : Setting) : op.plain = true ↔ op.Plain := by
  simp only [plain, Bool.and_eq_true, List.all_eq_true, bne_iff_ne]
  constructor
  · rintro ⟨⟨hsect, hname⟩, hvalue⟩
    exact ⟨fun hc => (hsect _ hc).1 rfl, fun hc => (hname _ hc).1 rfl, fun hc => (hsect _ hc).2 rfl,
      fun hc => (hname _ hc).2 rfl, fun hc => hvalue _ hc rfl⟩
  · intro h
    exact ⟨⟨fun _ hc => ⟨fun heq => h.sect (heq ▸ hc), fun heq => h.sectNul (heq ▸ hc)⟩,
      fun _ hc => ⟨fun heq => h.name (heq ▸ hc), fun heq => h.nameNul (heq ▸ hc)⟩⟩,
      fun _ hc heq => h.valueNul (heq ▸ hc)⟩

instance (op : Setting) : Decidable op.Plain := decidable_of_iff _ op.plain_iff

/-! ### Keys -/

theorem mem_lowercase_iff {c : UInt8} (hc : c < 0x41) {s : Bytes} : c ∈ lowercase s ↔ c ∈ s := by
  simp only [lowercase, List.mem_map, (tolower_eq_iff hc).2, exists_eq_right]

theorem makeKey_eq (sect name : Bytes) :
    makeKey sect name = lowercase sect ++ '='.toUInt8 :: lowercase name := by
  rw [makeKey, lowercase, List.map_append, List.map_cons]
  rfl

/-- Keys of pairs without `=` belong to one pair each. -/
theorem makeKey_eq_iff {sect name : Bytes} (hsect : '='.toUInt8 ∉ sect) (hname : '='.toUInt8 ∉ name)
    (sect' name' : Bytes) :
    makeKey sect name = makeKey sect' name' ↔
      lowercase sect = lowercase sect' ∧ lowercase name = lowercase name' := by
  have hbelow : '='.toUInt8 < 0x41 := by decide
  rw [← mem_lowercase_iff hbelow] at hsect hname
  rw [makeKey_eq, makeKey_eq, List.append_cons_inj_of_notMem hsect hname]
  simp only [true_and]

theorem zero_mem_makeKey_iff (sect name : Bytes) : 0 ∈ makeKey sect name ↔ 0 ∈ sect ∨ 0 ∈ name := by
  have hbelow : (0 : UInt8) < 0x41 := by decide
  have hne : (0 : UInt8) ≠ '='.toUInt8 := by decide
  rw [makeKey_eq, List.mem_append, List.mem_cons, mem_lowercase_iff hbelow, mem_lowercase_iff hbelow]
  simp only [hne, false_or]

theorem cString_eq_self {s : Bytes} (hs : 0 ∉ s) : cString s = s := by
  rw [cString, List.takeWhile_eq_self_iff]
  intro c hc
  exact decide_eq_true fun h => hs (h ▸ hc)

theorem zero_notMem_cString (s : Bytes) : 0 ∉ cString s := by
  intro h
  have := List.mem_takeWhile_imp h
  simp at this

/-! ### One call -/

section Set

variable (reader : INIReader) (op : Setting)

/-- A call stores what its value is as a C string, and empties what it was asked to store it under. -/
theorem values_set (key : Bytes) :
    (reader.set op.sect op.name op.value).values key =
      if key = makeKey (cString op.sect) (cString op.name) then
        if key = makeKey op.sect op.name then some (cString op.value)
        else
          let old := (reader.values key).getD []
          some ((if old.length > 0 then old ++ ['\n'.toUInt8] else old) ++ cString op.value)
      else if key = makeKey op.sect op.name then some []
      else reader.values key := by
  simp only [INIReader.set, INIReader.valueHandler, Function.update_apply]
  split_ifs with h₁ h₂ h₃ h₄ h₅ <;> simp_all

variable {op}

theorem getString_set (hop : op.Plain) (sect name defaultValue : Bytes) :
    (reader.set op.sect op.name op.value).getString sect name defaultValue =
      if op.For sect name then op.value else reader.getString sect name defaultValue := by
  have hkey : makeKey sect name = makeKey op.sect op.name ↔ op.For sect name := by
    rw [eq_comm, makeKey_eq_iff hop.sect hop.name]
    rfl
  rw [INIReader.getString, values_set, cString_eq_self hop.sectNul, cString_eq_self hop.nameNul,
    cString_eq_self hop.valueNul]
  simp only [hkey]
  split_ifs <;> rfl

/-- With a NUL somewhere a call does not store its value. -/
theorem getString_set_nul (hvalue : op.value ≠ []) (hnul : 0 ∈ op.sect ∨ 0 ∈ op.name ∨ 0 ∈ op.value) :
    (reader.set op.sect op.name op.value).getString op.sect op.name [] ≠ op.value := by
  rw [INIReader.getString, values_set, if_pos rfl, if_pos rfl]
  split_ifs with hkey
  · -- then the key holds no NUL, and it is the value that is cut off
    have hno : ¬ (0 ∈ op.sect ∨ 0 ∈ op.name) := by
      rw [← zero_mem_makeKey_iff, hkey, zero_mem_makeKey_iff]
      exact fun h => h.elim (zero_notMem_cString _) (zero_notMem_cString _)
    have hmem : 0 ∈ op.value := by
      rw [← or_assoc] at hnul
      exact hnul.resolve_left hno
    intro heq
    rw [Option.getD_some] at heq
    exact zero_notMem_cString op.value (heq.symm ▸ hmem)
  · exact hvalue.symm

/-- Where there is `=` in a section or a name, another pair has the same key. -/
theorem exists_makeKey_eq (h : '='.toUInt8 ∈ op.sect ∨ '='.toUInt8 ∈ op.name) :
    ∃ sect name, makeKey sect name = makeKey op.sect op.name ∧ ¬ op.For sect name ∧
      ('='.toUInt8 ∈ sect ∨ '='.toUInt8 ∈ name) := by
  rcases h with h | h
  · obtain ⟨front, rest, hsplit⟩ := List.append_of_mem h
    refine ⟨front, rest ++ '='.toUInt8 :: op.name, ?_, fun hfor => ?_, .inr (by simp)⟩
    · simp [makeKey, hsplit]
    · have hlength := congrArg List.length hfor.1
      simp [lowercase, hsplit] at hlength
  · obtain ⟨front, rest, hsplit⟩ := List.append_of_mem h
    refine ⟨op.sect ++ '='.toUInt8 :: front, rest, ?_, fun hfor => ?_, .inl (by simp)⟩
    · simp [makeKey, hsplit]
    · have hlength := congrArg List.length hfor.1
      simp [lowercase] at hlength

end Set

/-! ### Histories -/

section History

variable (history : List Setting) (op : Setting)

theorem sets_concat : sets (history ++ [op]) = (sets history).set op.sect op.name op.value :=
  List.foldl_concat ..

theorem lastSet_concat (sect name : Bytes) :
    lastSet (history ++ [op]) sect name =
      if op.For sect name then some op.value else lastSet history sect name := by
  rw [lastSet, List.filter_append, List.filter_singleton]
  by_cases hop : op.For sect name
  · simp [hop]
  · simp [hop, lastSet]

variable {history op}

/-- The sections are those of the calls, as C strings and as they were written. -/
theorem getSections_sets (history : List Setting) :
    (sets history).getSections = (history.map fun op => cString op.sect).toFinset := by
  induction history using List.reverseRecOn with
  | nil => rfl
  | append_singleton history op ih =>
    rw [List.map_append, List.toFinset_append, ← ih, sets_concat, Finset.union_comm]
    rfl

/-- The fields of a section are the names set in it, whatever its case. -/
theorem getFields_sets (history : List Setting) (sect : Bytes) :
    (sets history).getFields sect =
      ((history.filter fun op => lowercase (cString op.sect) = lowercase sect).map
        fun op => cString op.name).toFinset := by
  induction history using List.reverseRecOn with
  | nil => rfl
  | append_singleton history op ih =>
    rw [List.filter_append, List.filter_singleton, List.map_append, List.toFinset_append, ← ih,
      sets_concat]
    simp only [INIReader.getFields, INIReader.set, INIReader.valueHandler, Function.update_apply]
    by_cases hsect : lowercase (cString op.sect) = lowercase sect
    · rw [hsect, if_pos rfl, decide_eq_true rfl, Finset.union_comm]
      rfl
    · rw [if_neg (Ne.symm hsect), decide_eq_false hsect]
      exact (Finset.union_empty _).symm

/-- As long as there are calls without `=` and NUL only, the reader answers as a store of pairs. -/
theorem sets_answers (h : ∀ op ∈ history, op.Plain) : Answers history := by
  induction history using List.reverseRecOn with
  | nil => exact fun _ _ _ => rfl
  | append_singleton history op ih =>
    rw [List.forall_mem_append, List.forall_mem_singleton] at h
    intro sect name defaultValue
    rw [sets_concat, getString_set _ h.2, lastSet_concat, ih h.1]
    split_ifs <;> rfl

/-- Nothing is set for a pair with `=` by calls without. -/
theorem lastSet_eq_none (h : ∀ op ∈ history, op.Plain) {sect name : Bytes}
    (hmem : '='.toUInt8 ∈ sect ∨ '='.toUInt8 ∈ name) : lastSet history sect name = none := by
  have hbelow : '='.toUInt8 < 0x41 := by decide
  have hfilter : (history.filter fun op => op.For sect name) = [] := by
    refine List.filter_eq_nil_iff.mpr fun op hop hfor => ?_
    obtain ⟨hsect, hname⟩ := of_decide_eq_true hfor
    rw [← mem_lowercase_iff hbelow, ← mem_lowercase_iff (s := name) hbelow, ← hsect, ← hname,
      mem_lowercase_iff hbelow, mem_lowercase_iff hbelow] at hmem
    exact hmem.elim (h op hop).sect (h op hop).name
  rw [lastSet, hfilter]
  rfl

/-- The first call with `=` or NUL in it is answered wrongly: for the pair that was set, or for another
one with the same key. -/
theorem not_answers_concat (h : ∀ op ∈ history, op.Plain) (hvalue : op.value ≠ []) (hop : ¬ op.Plain) :
    ¬ Answers (history ++ [op]) := by
  intro hanswers
  by_cases hnul : 0 ∈ op.sect ∨ 0 ∈ op.name ∨ 0 ∈ op.value
  · refine getString_set_nul (sets history) hvalue hnul ?_
    have hask := hanswers op.sect op.name []
    rwa [sets_concat, lastSet_concat, if_pos ⟨rfl, rfl⟩] at hask
  · simp only [not_or] at hnul
    have heq : '='.toUInt8 ∈ op.sect ∨ '='.toUInt8 ∈ op.name := by
      by_contra hno
      rw [not_or] at hno
      exact hop ⟨hno.1, hno.2, hnul.1, hnul.2.1, hnul.2.2⟩
    obtain ⟨sect, name, hkey, hfor, hmem⟩ := exists_makeKey_eq heq
    have hask := hanswers sect name []
    rw [sets_concat, lastSet_concat, if_neg hfor, lastSet_eq_none h hmem, INIReader.getString, values_set,
      cString_eq_self hnul.1, cString_eq_self hnul.2.1, cString_eq_self hnul.2.2, hkey, if_pos rfl,
      if_pos rfl] at hask
    exact hvalue hask

theorem Independent.of_concat (h : Independent (history ++ [op])) : Independent history :=
  fun done hdone => h done (hdone.trans (List.prefix_append history [op]))

/-- **A reader keeps pairs apart.**  After every one of the calls it answers as a store of pairs would,
exactly when no section or name among them holds `=`, and nothing in them holds a NUL. -/
theorem set_independent_iff (history : List Setting) (hvalues : ∀ op ∈ history, op.value ≠ []) :
    Independent history ↔ ∀ op ∈ history, op.Plain := by
  constructor
  · intro h
    induction history using List.reverseRecOn with
    | nil => simp
    | append_singleton history op ih =>
      rw [List.forall_mem_append, List.forall_mem_singleton] at hvalues ⊢
      have hhistory := ih hvalues.1 h.of_concat
      refine ⟨hhistory, ?_⟩
      by_contra hop
      exact not_answers_concat hhistory hvalues.2 hop (h _ List.prefix_rfl)
  · intro h done hdone
    exact sets_answers fun op hop => h op (hdone.subset hop)

theorem set_independent_port :
    Independent
      [⟨"net".toList.map Char.toUInt8, "port".toList.map Char.toUInt8, "80".toList.map Char.toUInt8⟩,
        ⟨"Net".toList.map Char.toUInt8, "PORT".toList.map Char.toUInt8, "81".toList.map Char.toUInt8⟩] :=
  (set_independent_iff _ (by decide)).mpr (by decide +kernel)

/-- What is set for the section `a` and the name `b=c` is read for the section `a=b` and the name `c`. -/
theorem not_independent_separator :
    ¬ Independent [⟨"a".toList.map Char.toUInt8, "b=c".toList.map Char.toUInt8, "v".toList.map Char.toUInt8⟩] := by
  intro h
  have hask := h _ List.prefix_rfl ("a=b".toList.map Char.toUInt8) ("c".toList.map Char.toUInt8) []
  revert hask
  decide

end History

end LearnNetlib.Ini
