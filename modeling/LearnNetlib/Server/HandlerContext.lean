import LearnNetlib.Base.Bytes
import LearnNetlib.Foundations.Numeral
import Mathlib.Data.List.TakeWhile
import Mathlib.Data.Nat.Digits.Defs

/-!
# What the server hands around

* `Header`, `HandlerContext`, `ConnCall` — the data of `server/handler_context.h`, and what is asked of a
  connection;
* `iequals`, `stoul`, `toString` — the library functions the server uses, in the classic locale;
* **`stoul_toString`** — a length that has been written into a header is read back from it.
-/

namespace LearnNetlib.Rest

/-- The bytes of a text. -/
def ascii (s : String) : Bytes := s.toList.map fun c => c.toNat.toUInt8

/-- `request_header` and `response_header`. -/
structure Header where
  name : Bytes
  value : Bytes
  deriving Repr, DecidableEq

/-- `HandlerContext`; of the request only the headers. -/
structure HandlerContext where
  requestHeaders : List Header
  requestBody : Bytes
  responseHeaders : List Header
  responseBody : Bytes
  deriving Repr, DecidableEq

/-- `HandlerContext(request)`. -/
def HandlerContext.ofRequest (requestHeaders : List Header) : HandlerContext :=
  ⟨requestHeaders, [], [], []⟩

/-- The `std::error_code` of a callback, unless all went well. -/
inductive AsioError
  | eof
  | other
  deriving Repr, DecidableEq

/-- The states a response is given. -/
inductive ConnStatus
  | ok
  | badRequest
  deriving Repr, DecidableEq

/-- Calls of a `connection`. -/
inductive ConnCall
  | setStatus (status : ConnStatus)
  | setHeaders (headers : List Header)
  | write (data : Bytes)
  deriving Repr, DecidableEq

/-! ### Library functions -/

/-- `std::toupper`. -/
def toUpper (c : UInt8) : UInt8 := if 0x61 ≤ c ∧ c ≤ 0x7a then c - 0x20 else c

/-- `boost::iequals`. -/
def iequals (a b : Bytes) : Bool := a.map toUpper == b.map toUpper

/-- `std::isspace`. -/
def isSpace (c : UInt8) : Bool := c = 0x20 ∨ (0x09 ≤ c ∧ c ≤ 0x0d)

/-- `std::isdigit`. -/
def isDigit (c : UInt8) : Bool := 0x30 ≤ c ∧ c ≤ 0x39

/-- What `std::stoul` throws. -/
inductive StdException
  | invalidArgument
  | outOfRange
  deriving Repr, DecidableEq

/-- The sign, which `strtoul` takes as well, and what follows it. -/
def takeSign : Bytes → Bool × Bytes
  | [] => (false, [])
  | c :: s => if c = 0x2d then (true, s) else if c = 0x2b then (false, s) else (false, c :: s)

/-- `std::stoul`, with an `unsigned long` of 64 bits. -/
def stoul (s : Bytes) : Except StdException ℕ :=
  let (negative, s) := takeSign (s.dropWhile isSpace)
  let digits := s.takeWhile isDigit
  if digits.isEmpty then .error .invalidArgument
  else
    let n := Numeral.value 10 (digits.map fun c => c.toNat - 0x30)
    if n < 2 ^ 64 then .ok (if negative then (2 ^ 64 - n) % 2 ^ 64 else n) else .error .outOfRange

/-- A digit. -/
def digitChar (d : ℕ) : UInt8 := 0x30 + d.toUInt8

/-- `std::to_string`. -/
def toString (n : ℕ) : Bytes :=
  if n = 0 then [digitChar 0] else (Nat.digits 10 n).reverse.map digitChar

/-! ### Numbers in headers -/

theorem digitChar_spec : ∀ d < 10, isDigit (digitChar d) = true ∧ isSpace (digitChar d) = false ∧
    digitChar d ≠ 0x2d ∧ digitChar d ≠ 0x2b ∧ (digitChar d).toNat - 0x30 = d := by
  decide

/-- The digits of a number, the first one first. -/
theorem exists_toString_eq (n : ℕ) :
    ∃ ds, toString n = ds.map digitChar ∧ ds ≠ [] ∧ (∀ d ∈ ds, d < 10) ∧ Numeral.value 10 ds = n := by
  refine ⟨Numeral.shortest 10 n, ?_, Numeral.shortest_ne_nil n, Numeral.shortest_lt (by decide) n,
    Numeral.value_shortest n⟩
  rw [toString, Numeral.shortest, apply_ite (List.map digitChar)]
  rfl

/-- **A length written is a length read.** -/
theorem stoul_toString {n : ℕ} (hn : n < 2 ^ 64) : stoul (toString n) = .ok n := by
  obtain ⟨ds, hds, hne, hlt, hvalue⟩ := exists_toString_eq n
  obtain ⟨d, ds, rfl⟩ := List.exists_cons_of_ne_nil hne
  obtain ⟨hdigit, hspace, hminus, hplus, -⟩ := digitChar_spec d (hlt d List.mem_cons_self)
  have htake : ((d :: ds).map digitChar).takeWhile isDigit = (d :: ds).map digitChar := by
    rw [List.takeWhile_eq_self_iff]
    intro c hc
    obtain ⟨k, hk, rfl⟩ := List.mem_map.mp hc
    exact (digitChar_spec k (hlt k hk)).1
  have hback : ((d :: ds).map digitChar).map (fun c => c.toNat - 0x30) = d :: ds :=
    Numeral.map_map_of_forall fun k hk => (digitChar_spec k (hlt k hk)).2.2.2.2
  have hsign : takeSign (((d :: ds).map digitChar).dropWhile isSpace)
      = (false, (d :: ds).map digitChar) := by
    rw [List.map_cons, List.dropWhile_cons_of_neg (by rw [hspace]; decide), takeSign, if_neg hminus,
      if_neg hplus]
  rw [stoul, hds, hsign]
  simp only [htake, hback, hvalue, if_pos hn]
  rfl

end LearnNetlib.Rest
