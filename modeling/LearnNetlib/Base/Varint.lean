import LearnNetlib.Base.Coding

/-!
# Streams of variable-length integers

The rest of the varint functions of `base/coding.cc`, and what holds of them for every value and every
byte string.

* `getVarint32`, `varintLength`, and `getMany` — one call after the other, until one fails;
* **`varint_streams`** — streams are read back and nothing behind them is touched, a numeral cut short
  is rejected, and the encodings have the lengths they are said to have;
* `getVarintLoop_some` — what has been consumed when the loop succeeds;
* **`getVarintPtr_exact_iff`** — the number returned is the number consumed exactly when the last byte
  permitted has no bits beyond the type.
-/

namespace LearnNetlib

/-! ### The code -/

/-- `GetVarint32(StringPiece*)`: the value and the rest of the input. -/
def getVarint32 (input : Bytes) : Access (Option (UInt32 × Bytes)) := do
  let r ← getVarint32Ptr input 0 input.length
  return r.map fun (value, q) => (value, input.drop q)

/-- The loop of `VarintLength`. -/
def varintLengthLoop (v : UInt64) (len : ℕ) : ℕ :=
  if v ≥ 128 then varintLengthLoop (v >>> 7) (len + 1) else len
termination_by v.toNat
decreasing_by
  have hge : 128 ≤ v.toNat := UInt64.le_iff_toNat_le.mp ‹v ≥ 128›
  rw [UInt64.toNat_shiftRight, show (7 : UInt64).toNat % 64 = 7 from rfl, Nat.shiftRight_eq_div_pow]
  omega

/-- `VarintLength`. -/
def varintLength (v : UInt64) : ℕ := varintLengthLoop v 1

variable {α : Type}

/-- A call `Get…(input, value)`: what it returns, and `*input` and `*value` after it. -/
def callGet (get : Bytes → Access (Option (α × Bytes))) (input : Bytes) (value : α) :
    Access (Bool × Bytes × α) := do
  match ← get input with
  | none => return (false, input, value)
  | some (v, rest) => return (true, rest, v)

/-- At most `n` calls, until one fails: the values, and `*input` after the last one. -/
def getMany (get : Bytes → Access (Option (α × Bytes))) : ℕ → Bytes → Access (List α × Bytes)
  | 0, input => return ([], input)
  | n + 1, input => do
    match ← get input with
    | none => return ([], input)
    | some (v, rest) => do
      let (vs, rest) ← getMany get n rest
      return (v :: vs, rest)

/-! ### Writing -/

theorem varintLengthLoop_eq (v : UInt64) (len : ℕ) :
    varintLengthLoop v (len + 1) = len + (Base128.encode v.toNat).length := by
  induction h : v.toNat using Nat.strongRecOn generalizing v len with
  | ind n ih =>
    subst h
    have hge : v ≥ 128 ↔ 128 ≤ v.toNat := UInt64.le_iff_toNat_le
    have hshift : (v >>> 7).toNat = v.toNat / 128 := by
      rw [UInt64.toNat_shiftRight, show (7 : UInt64).toNat % 64 = 7 from rfl,
        Nat.shiftRight_eq_div_pow]
    rw [varintLengthLoop]
    split_ifs with hmore
    · rw [hge] at hmore
      rw [ih (v >>> 7).toNat (by omega) (v >>> 7) (len + 1) rfl, hshift,
        Base128.encode_of_ge hmore, List.length_cons]
      omega
    · rw [hge] at hmore
      rw [Base128.encode_of_lt (by omega), List.length_singleton]

/-- **`VarintLength` is the number of bytes written.** -/
theorem length_encodeVarint64 (v : UInt64) : (encodeVarint64 v).length = varintLength v := by
  rw [varintLength, varintLengthLoop_eq, encodeVarint64_eq, Nat.zero_add]

theorem encodeVarint32_eq_encodeVarint64 (v : UInt32) :
    encodeVarint32 v = encodeVarint64 v.toUInt64 := by
  rw [encodeVarint32_eq, encodeVarint64_eq, UInt32.toNat_toUInt64]

theorem encodeVarint32_length_le (v : UInt32) : (encodeVarint32 v).length ≤ 5 := by
  rw [encodeVarint32_eq]
  exact Base128.encode_length_le 4 _ (lt_of_lt_of_le v.toNat_lt (by decide))

/-! ### Streams -/

/-- **Round trip** of a 32-bit varint in front of anything. -/
theorem getVarint32_encodeVarint32 (v : UInt32) (rest : Bytes) :
    getVarint32 (encodeVarint32 v ++ rest) = .ok (some (v, rest)) := by
  have hat : Bytes.HasAt (encodeVarint32 v ++ rest) 0 (encodeVarint32 v) :=
    (Bytes.HasAt.append_iff.mp (Bytes.HasAt.self _)).1
  rw [getVarint32, getVarint32Ptr_encodeVarint32 v hat (by simp)]
  simp

/-- What is put one after the other is got back, and nothing behind it is touched. -/
theorem getMany_foldl {get : Bytes → Access (Option (α × Bytes))} {put : Bytes → α → Bytes}
    {encode : α → Bytes} (hput : ∀ dst v, put dst v = dst ++ encode v)
    (hget : ∀ v rest, get (encode v ++ rest) = .ok (some (v, rest))) (vs : List α) (rest : Bytes) :
    getMany get vs.length (vs.foldl put [] ++ rest) = .ok (vs, rest) := by
  have hfold : ∀ (vs : List α) (dst : Bytes), vs.foldl put dst = dst ++ vs.flatMap encode := by
    intro vs
    induction vs with
    | nil => intro dst; simp
    | cons v vs ih => intro dst; rw [List.foldl_cons, ih, hput, List.flatMap_cons, List.append_assoc]
  rw [hfold, List.nil_append]
  induction vs with
  | nil => rfl
  | cons v vs ih =>
    rw [List.flatMap_cons, List.append_assoc, List.length_cons, getMany, hget, Access.ok_bind]
    dsimp only
    rw [ih]
    rfl

/-! ### Numerals cut short -/

/-- While every byte announces another, the loop goes on to the limit. -/
theorem getVarintLoop_announces {w : ℕ} (hw : 8 ≤ w) {data : Bytes}
    (hall : ∀ b ∈ data, 128 ≤ b.toNat) (shifts : List ℕ) (p : ℕ) (result : BitVec w) :
    getVarintLoop data data.length shifts p result = .ok none := by
  induction shifts generalizing p result with
  | nil => rfl
  | cons shift shifts ih =>
    rw [getVarintLoop]
    by_cases hp : p < data.length
    · have hmore := hall data[p] (List.getElem_mem hp)
      rw [if_pos hp, readByte_of_lt hp, Access.ok_bind]
      simp only [byte_more_iff hw, hmore, if_true]
      exact ih (p + 1) _
    · rw [if_neg hp]

theorem getVarint64_announces {data : Bytes} (hall : ∀ b ∈ data, 128 ≤ b.toNat) :
    getVarint64 data = .ok none := by
  rw [getVarint64, getVarint64Ptr, getVarintLoop_announces (by decide) hall]
  rfl

theorem getVarint32_announces {data : Bytes} (hall : ∀ b ∈ data, 128 ≤ b.toNat) :
    getVarint32 data = .ok none := by
  have hfallback : getVarint32PtrFallback data 0 data.length = .ok none := by
    rw [getVarint32PtrFallback, getVarintLoop_announces (by decide) hall]
    rfl
  have hptr : getVarint32Ptr data 0 data.length = .ok none := by
    rw [getVarint32Ptr, hfallback]
    by_cases hp : 0 < data.length
    · have hmore := hall data[0] (List.getElem_mem hp)
      rw [if_pos hp, readByte_of_lt hp, Access.ok_bind, if_neg]
      rw [and_128_eq_zero_iff]
      omega
    · rw [if_neg hp]
  rw [getVarint32, hptr]
  rfl

theorem callGet_none {get : Bytes → Access (Option (α × Bytes))} {input : Bytes}
    (h : get input = .ok none) (value : α) : callGet get input value = .ok (false, input, value) := by
  rw [callGet, h]
  rfl

/-- **Streams of varints**: what has been put is got back, whatever follows it; a numeral cut short is
rejected and leaves the input as it is; and the encodings agree and have the lengths promised. -/
theorem varint_streams :
    (∀ (vs : List UInt32) (rest : Bytes),
      getMany getVarint32 vs.length (vs.foldl putVarint32 [] ++ rest) = .ok (vs, rest)) ∧
    (∀ (vs : List UInt64) (rest : Bytes),
      getMany getVarint64 vs.length (vs.foldl putVarint64 [] ++ rest) = .ok (vs, rest)) ∧
    (∀ (v : UInt32) (pre : Bytes), pre <+: encodeVarint32 v → pre ≠ encodeVarint32 v →
      ∀ value, callGet getVarint32 pre value = .ok (false, pre, value)) ∧
    (∀ (v : UInt64) (pre : Bytes), pre <+: encodeVarint64 v → pre ≠ encodeVarint64 v →
      ∀ value, callGet getVarint64 pre value = .ok (false, pre, value)) ∧
    (∀ v : UInt32, encodeVarint32 v = encodeVarint64 v.toUInt64 ∧
      (encodeVarint32 v).length = varintLength v.toUInt64 ∧ (encodeVarint32 v).length ≤ 5) ∧
    ∀ v : UInt64, (encodeVarint64 v).length = varintLength v ∧ (encodeVarint64 v).length ≤ 10 := by
  refine ⟨?_, ?_, ?_, ?_, ?_, ?_⟩
  · exact getMany_foldl (fun _ _ => rfl) getVarint32_encodeVarint32
  · exact getMany_foldl (fun _ _ => rfl) getVarint64_encodeVarint64
  · intro v pre hpre hne value
    rw [encodeVarint32_eq] at hpre hne
    exact callGet_none
      (getVarint32_announces ((Base128.encode_terminated _).announces hpre hne)) value
  · intro v pre hpre hne value
    rw [encodeVarint64_eq] at hpre hne
    exact callGet_none
      (getVarint64_announces ((Base128.encode_terminated _).announces hpre hne)) value
  · intro v
    refine ⟨encodeVarint32_eq_encodeVarint64 v, ?_, encodeVarint32_length_le v⟩
    rw [encodeVarint32_eq_encodeVarint64, length_encodeVarint64]
  · intro v
    exact ⟨length_encodeVarint64 v, encodeVarint64_length_le v⟩

/-! ### Numerals too large for the type -/

/-- The loop succeeds behind a complete numeral only. -/
theorem getVarintLoop_some {w : ℕ} (hw : 8 ≤ w) {data : Bytes} {limit : ℕ} {shifts : List ℕ}
    {p : ℕ} {result v : BitVec w} {q : ℕ}
    (h : getVarintLoop data limit shifts p result = .ok (some (v, q))) :
    ∃ bs, Base128.Terminated bs ∧ data.HasAt p bs ∧ bs.length ≤ shifts.length ∧
      q = p + bs.length ∧ q ≤ limit := by
  induction shifts generalizing p result with
  | nil => exact absurd h (by simp [getVarintLoop])
  | cons shift shifts ih =>
    rw [getVarintLoop] at h
    split_ifs at h with hp
    · obtain ⟨b, hread, h⟩ := Access.bind_eq_ok.mp h
      simp only [byte_more_iff hw] at h
      split_ifs at h with hmore
      · obtain ⟨bs, hbs, hat, hlen, hq, hlimit⟩ := ih h
        refine ⟨b :: bs, Base128.terminated_cons hmore hbs, .cons hread hat, ?_, ?_, hlimit⟩
        · rw [List.length_cons, List.length_cons]
          omega
        · rw [List.length_cons]
          omega
      · rw [Access.pure_eq, Except.ok.injEq, Option.some.injEq, Prod.mk.injEq] at h
        obtain ⟨-, rfl⟩ := h
        exact ⟨[b], show b.toNat < 128 by omega, .cons hread .nil, by simp, rfl, by omega⟩
    · exact absurd h (by simp)

theorem getVarint32PtrFallback_some {data : Bytes} {p limit : ℕ} {v : UInt32} {q : ℕ}
    (h : getVarint32PtrFallback data p limit = .ok (some (v, q))) :
    ∃ bs, Base128.Terminated bs ∧ data.HasAt p bs ∧ bs.length ≤ 5 ∧ q = p + bs.length ∧
      q ≤ limit := by
  rw [getVarint32PtrFallback] at h
  obtain ⟨r, hr, h⟩ := Access.bind_eq_ok.mp h
  rw [Access.pure_eq, Except.ok.injEq, Option.map_eq_some_iff] at h
  obtain ⟨⟨v', q'⟩, rfl, h⟩ := h
  obtain ⟨-, rfl⟩ := Prod.mk.injEq .. ▸ h
  exact getVarintLoop_some (by decide) hr

theorem getVarint32Ptr_some {data : Bytes} {p limit : ℕ} {v : UInt32} {q : ℕ}
    (h : getVarint32Ptr data p limit = .ok (some (v, q))) :
    ∃ bs, Base128.Terminated bs ∧ data.HasAt p bs ∧ bs.length ≤ 5 ∧ q = p + bs.length ∧
      q ≤ limit := by
  rw [getVarint32Ptr] at h
  split_ifs at h with hp
  · obtain ⟨b, hread, h⟩ := Access.bind_eq_ok.mp h
    split_ifs at h with hb
    · rw [Access.pure_eq, Except.ok.injEq, Option.some.injEq, Prod.mk.injEq] at h
      obtain ⟨-, rfl⟩ := h
      exact ⟨[b], (and_128_eq_zero_iff b).mp hb, .cons hread .nil, by simp, rfl, by omega⟩
    · exact getVarint32PtrFallback_some h
  · exact getVarint32PtrFallback_some h

theorem getVarint64Ptr_some {data : Bytes} {p limit : ℕ} {v : UInt64} {q : ℕ}
    (h : getVarint64Ptr data p limit = .ok (some (v, q))) :
    ∃ bs, Base128.Terminated bs ∧ data.HasAt p bs ∧ bs.length ≤ 10 ∧ q = p + bs.length ∧
      q ≤ limit := by
  rw [getVarint64Ptr] at h
  obtain ⟨r, hr, h⟩ := Access.bind_eq_ok.mp h
  rw [Access.pure_eq, Except.ok.injEq, Option.map_eq_some_iff] at h
  obtain ⟨⟨v', q'⟩, rfl, h⟩ := h
  obtain ⟨-, rfl⟩ := Prod.mk.injEq .. ▸ h
  exact getVarintLoop_some (by decide) hr

/-- What a decoder called at `p` promises: it succeeds only on a number below `bound`, and the number it
returns is the one spelled by the bytes it has consumed. -/
def Exact (toNat : α → ℕ) (bound : ℕ) (data : Bytes) (p : ℕ) (r : Access (Option (α × ℕ))) : Prop :=
  ∀ v q, r = .ok (some (v, q)) →
    Base128.value ((data.drop p).take (q - p)) < bound ∧
      toNat v = Base128.value ((data.drop p).take (q - p))

/-- `n` bytes at `p` announce another, and the next one ends the numeral with a group from `m` on. -/
def Overflows (data : Bytes) (p limit n m : ℕ) : Prop :=
  ∃ (init : Bytes) (last : UInt8), init.length = n ∧ (∀ b ∈ init, 128 ≤ b.toNat) ∧
    m ≤ last.toNat ∧ last.toNat < 128 ∧ data.HasAt p (init ++ [last]) ∧ p + n < limit

/-- A decoder of at most `n + 1` groups that reduces modulo `m * 128 ^ n` is exact but for the last
group. -/
theorem exact_iff {toNat : α → ℕ} {data : Bytes} {p limit n m : ℕ} (hm : 0 < m)
    {r : Access (Option (α × ℕ))} {ofNat : ℕ → α} (hof : ∀ k, toNat (ofNat k) = k % (m * 128 ^ n))
    (hsome : ∀ v q, r = .ok (some (v, q)) → ∃ bs, Base128.Terminated bs ∧ data.HasAt p bs ∧
      bs.length ≤ n + 1 ∧ q = p + bs.length ∧ q ≤ limit)
    (hterm : ∀ bs, Base128.Terminated bs → data.HasAt p bs → p + bs.length ≤ limit →
      bs.length ≤ n + 1 → r = .ok (some (ofNat (Base128.value bs), p + bs.length))) :
    Exact toNat (m * 128 ^ n) data p r ↔ ¬ Overflows data p limit n m := by
  have hconsumed : ∀ bs, data.HasAt p bs → (data.drop p).take (p + bs.length - p) = bs := by
    intro bs hat
    rw [Nat.add_sub_cancel_left]
    exact (List.prefix_iff_eq_take.mp hat).symm
  constructor
  · rintro hexact ⟨init, last, rfl, hinit, hlow, hlast, hat, hlimit⟩
    have hlen : (init ++ [last]).length = init.length + 1 := by simp
    have hr := hterm _ (Base128.terminated_iff.mpr ⟨init, last, rfl, hinit, hlast⟩) hat
      (by omega) hlen.le
    obtain ⟨hlt, -⟩ := hexact _ _ hr
    rw [hconsumed _ hat] at hlt
    exact absurd ((Base128.le_value_iff hlast m).mpr hlow) (not_le.mpr hlt)
  · intro hfits v q hr
    obtain ⟨bs, hbs, hat, hlen, rfl, hlimit⟩ := hsome v q hr
    have hlt : Base128.value bs < m * 128 ^ n := by
      rcases Nat.lt_or_ge n bs.length with hlong | hshort
      · -- the last group permitted
        obtain ⟨init, last, rfl, hinit, hlast⟩ := Base128.terminated_iff.mp hbs
        rw [List.length_append, List.length_singleton] at hlen hlong hlimit
        obtain rfl : init.length = n := by omega
        rw [← not_le, Base128.le_value_iff hlast]
        intro hlow
        exact hfits ⟨init, last, rfl, hinit, hlow, hlast, hat, by omega⟩
      · calc Base128.value bs < 128 ^ bs.length := Base128.value_lt bs
          _ ≤ 128 ^ n := Nat.pow_le_pow_right (by decide) hshort
          _ ≤ m * 128 ^ n := Nat.le_mul_of_pos_left _ hm
    have hv := hterm bs hbs hat hlimit hlen
    rw [hr, Except.ok.injEq, Option.some.injEq, Prod.mk.injEq] at hv
    rw [hconsumed bs hat, hv.1, hof, Nat.mod_eq_of_lt hlt]
    exact ⟨hlt, rfl⟩

/-- **When the number returned is the number consumed**: unless the last byte permitted, the fifth or
the tenth, ends the numeral and has bits beyond the type. -/
theorem getVarintPtr_exact_iff (data : Bytes) (p limit : ℕ) :
    (Exact UInt32.toNat (2 ^ 32) data p (getVarint32Ptr data p limit) ↔
      ¬ Overflows data p limit 4 16) ∧
    (Exact UInt64.toNat (2 ^ 64) data p (getVarint64Ptr data p limit) ↔
      ¬ Overflows data p limit 9 2) := by
  constructor
  · rw [show 2 ^ 32 = 16 * 128 ^ 4 by norm_num]
    refine exact_iff (by decide) (fun k => ?_) (fun v q h => getVarint32Ptr_some h)
      (fun bs hbs hat hlimit hlen => getVarint32Ptr_terminated hbs hat hlimit hlen)
    rw [UInt32.toNat_ofNat', show 16 * 128 ^ 4 = 2 ^ 32 by norm_num]
  · rw [show 2 ^ 64 = 2 * 128 ^ 9 by norm_num]
    refine exact_iff (by decide) (fun k => ?_) (fun v q h => getVarint64Ptr_some h)
      (fun bs hbs hat hlimit hlen => getVarint64Ptr_terminated hbs hat hlimit hlen)
    rw [UInt64.toNat_ofNat', show 2 * 128 ^ 9 = 2 ^ 64 by norm_num]

/-- The five bytes of `2 ^ 35 - 1` are read as `2 ^ 32 - 1`, and the ten of `2 ^ 70 - 1` as
`2 ^ 64 - 1`. -/
theorem getVarintPtr_not_exact :
    ¬ Exact UInt32.toNat (2 ^ 32) [0xff, 0xff, 0xff, 0xff, 0x7f] 0
      (getVarint32Ptr [0xff, 0xff, 0xff, 0xff, 0x7f] 0 5) ∧
    ¬ Exact UInt64.toNat (2 ^ 64) (List.replicate 9 0xff ++ [0x7f]) 0
      (getVarint64Ptr (List.replicate 9 0xff ++ [0x7f]) 0 10) := by
  constructor
  · intro h
    have hlt := (h (2 ^ 32 - 1) 5 (by decide)).1
    revert hlt
    decide
  · intro h
    have hbs : Base128.Terminated (List.replicate 9 0xff ++ [0x7f]) := by
      simp [Base128.Terminated, List.replicate]
    have hlt := (h _ _ (getVarint64Ptr_terminated hbs (.self _) le_rfl le_rfl)).1
    revert hlt
    decide

end LearnNetlib
