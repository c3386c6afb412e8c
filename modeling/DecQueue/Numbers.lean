import DecQueue.DecqueueCore
import Mathlib.Algebra.Order.Field.Rat
import Mathlib.Data.Rat.Floor

/-! # Numbers of the clients' language

Arithmetic and comparison over the rationals, the two infinities and NaN, and
the conversion of a string. Results are exact, only a literal beyond the
largest double is infinite; both zeros are one. -/

namespace DecQueue.Numbers
open DecqueueCore

/-! ### Comparison -/

def lessThan : JsNumber → JsNumber → Bool
  | .finite a, .finite b => decide (a < b)
  | .infinity negative, .finite _ => negative
  | .finite _, .infinity negative => !negative
  | .infinity negative, .infinity negative' => negative && !negative'
  | _, _ => false

/-- `a <= b`. -/
def atMost (a b : JsNumber) : Bool := a ≠ .nan && b ≠ .nan && !lessThan b a

/-- `Math.min`. -/
def minimum (a b : JsNumber) : JsNumber :=
  if a = .nan ∨ b = .nan then .nan else if lessThan b a then b else a

/-- `Math.max`. -/
def maximum (a b : JsNumber) : JsNumber :=
  if a = .nan ∨ b = .nan then .nan else if lessThan a b then b else a

theorem clamp_nan (lo hi : JsNumber) : maximum lo (minimum hi .nan) = .nan := by
  simp only [minimum, maximum, or_true, if_true]

theorem atMost_finite (a b : Rat) : atMost (.finite a) (.finite b) = true ↔ a ≤ b := by
  simp [atMost, lessThan]

theorem minimum_finite (hi q : Rat) : minimum (.finite hi) (.finite q) = .finite (min hi q) := by
  have hnan : ¬(JsNumber.finite hi = .nan ∨ JsNumber.finite q = .nan) := by simp
  rw [minimum, if_neg hnan]
  by_cases hlt : q < hi
  · rw [min_eq_right hlt.le]
    exact if_pos (decide_eq_true hlt)
  · rw [min_eq_left (not_lt.mp hlt)]
    exact if_neg (by simpa [lessThan] using hlt)

theorem minimum_cases (hi : Rat) {x : JsNumber} (hx : x ≠ .nan) :
    minimum (.finite hi) x = .infinity true ∨ ∃ q, minimum (.finite hi) x = .finite q ∧ q ≤ hi := by
  cases x with
  | nan => exact absurd rfl hx
  | infinity negative =>
    have hnan : ¬(JsNumber.finite hi = .nan ∨ JsNumber.infinity negative = .nan) := by simp
    rw [minimum, if_neg hnan]
    cases negative with
    | false => exact .inr ⟨hi, rfl, le_rfl⟩
    | true => exact .inl rfl
  | finite q => exact .inr ⟨min hi q, minimum_finite hi q, min_le_left hi q⟩

theorem maximum_finite (lo q : Rat) : maximum (.finite lo) (.finite q) = .finite (max lo q) := by
  have hnan : ¬(JsNumber.finite lo = .nan ∨ JsNumber.finite q = .nan) := by simp
  rw [maximum, if_neg hnan]
  by_cases hlt : lo < q
  · rw [max_eq_right hlt.le]
    exact if_pos (decide_eq_true hlt)
  · rw [max_eq_left (not_lt.mp hlt)]
    exact if_neg (by simpa [lessThan] using hlt)

/-- Between two finite bounds everything but NaN is brought in between. -/
theorem clamp_bounds {lo hi : Rat} (h : lo ≤ hi) {x : JsNumber} (hx : x ≠ .nan) :
    ∃ q, maximum (.finite lo) (minimum (.finite hi) x) = .finite q ∧ lo ≤ q ∧ q ≤ hi := by
  rcases minimum_cases hi hx with hmin | ⟨q, hmin, hle⟩
  · rw [hmin]
    exact ⟨lo, rfl, le_rfl, h⟩
  · rw [hmin, maximum_finite]
    exact ⟨max lo q, rfl, le_max_left lo q, max_le h hle⟩

/-! ### Arithmetic -/

def subtract : JsNumber → JsNumber → JsNumber
  | .finite a, .finite b => .finite (a - b)
  | .infinity negative, .finite _ => .infinity negative
  | .finite _, .infinity negative => .infinity !negative
  | .infinity negative, .infinity negative' => if negative = negative' then .nan else .infinity negative
  | _, _ => .nan

def multiply : JsNumber → JsNumber → JsNumber
  | .finite a, .finite b => .finite (a * b)
  | .infinity negative, .finite b | .finite b, .infinity negative =>
      if b = 0 then .nan else .infinity (negative != decide (b < 0))
  | .infinity negative, .infinity negative' => .infinity (negative != negative')
  | _, _ => .nan

/-- `Math.floor`. -/
def floor : JsNumber → JsNumber
  | .finite q => .finite q.floor
  | x => x

/-- What `sort` makes of the number a comparator returns. -/
def sortSign : JsNumber → Int
  | .finite q => if q < 0 then -1 else if 0 < q then 1 else 0
  | .infinity negative => if negative then -1 else 1
  | .nan => 0

/-- `array[index]`, where nothing is `undefined`. -/
def elementAt {α : Type} (array : List α) : JsNumber → Option α
  | .finite q => if q.den = 1 ∧ 0 ≤ q.num then array[q.num.toNat]? else none
  | _ => none

theorem mem_of_elementAt {α : Type} {array : List α} {index : JsNumber} {a : α}
    (h : elementAt array index = some a) : a ∈ array := by
  cases index with
  | nan => cases h
  | infinity negative => cases h
  | finite q =>
    simp only [elementAt] at h
    split at h
    · exact List.mem_of_getElem? h
    · cases h

theorem elementAt_floor {α : Type} (array : List α) (q : Rat) :
    (elementAt array (floor (.finite q))).isSome = true ↔ 0 ≤ q ∧ q < array.length := by
  have hlow : 0 ≤ q.floor ↔ 0 ≤ q := by
    rw [Rat.le_floor_iff, Int.cast_zero]
  have hhigh : q.floor < (array.length : Int) ↔ q < array.length := by
    rw [Rat.floor_lt_iff, Int.cast_natCast]
  rw [← hlow, ← hhigh]
  simp only [floor, elementAt, Rat.den_intCast, Rat.num_intCast, true_and]
  by_cases h : 0 ≤ q.floor
  · have hinside : q.floor.toNat < array.length ↔ q.floor < (array.length : Int) := by omega
    rw [if_pos h, isSome_getElem?, and_iff_right h]
    exact hinside
  · rw [if_neg h]
    exact iff_of_false Bool.false_ne_true fun hboth => h hboth.1

/-! ### `Number` of a string -/

def negate : JsNumber → JsNumber
  | .finite q => .finite (-q)
  | .infinity negative => .infinity !negative
  | .nan => .nan

def digitValue (u : UInt16) : Nat :=
  if 0x30 ≤ u ∧ u ≤ 0x39 then u.toNat - 0x30
  else if 0x41 ≤ u ∧ u ≤ 0x5A then u.toNat - 0x37
  else if 0x61 ≤ u ∧ u ≤ 0x7A then u.toNat - 0x57
  else 36

def isDigit (radix : Nat) (u : UInt16) : Bool := decide (digitValue u < radix)

def digitsValue (radix : Nat) (digits : JsString) : Nat :=
  digits.foldl (fun value u => value * radix + digitValue u) 0

/-- From the middle between the largest double and the next power of two on,
a literal is infinite. -/
def literal (q : Rat) : JsNumber :=
  if q < ((2 ^ 1024 - 2 ^ 970 : Nat) : Rat) then .finite q else .infinity false

def nonDecimalLiteral (radix : Nat) (digits : JsString) : JsNumber :=
  if digits ≠ [] ∧ digits.all (isDigit radix) = true then literal (digitsValue radix digits) else .nan

def splitSign : JsString → Bool × JsString
  | [] => (false, [])
  | u :: rest => if u = 0x2B then (false, rest) else if u = 0x2D then (true, rest) else (false, u :: rest)

def exponentPart : JsString → Option Int
  | [] => some 0
  | e :: rest =>
      let (negative, digits) := splitSign rest
      if (e = 0x65 ∨ e = 0x45) ∧ digits ≠ [] ∧ digits.all (isDigit 10) = true then
        let value : Int := digitsValue 10 digits
        some (if negative then -value else value)
      else none

def fractionPart : JsString → JsString × JsString
  | [] => ([], [])
  | u :: rest => if u = 0x2E then rest.span (isDigit 10) else ([], u :: rest)

def scaled (digits : Nat) (exponent : Int) : Rat :=
  if 0 ≤ exponent then ((digits * 10 ^ exponent.toNat : Nat) : Rat)
  else (digits : Rat) / ((10 ^ (-exponent).toNat : Nat) : Rat)

/-- `StrUnsignedDecimalLiteral`. -/
def unsignedDecimal (s : JsString) : JsNumber :=
  if s = [0x49, 0x6E, 0x66, 0x69, 0x6E, 0x69, 0x74, 0x79] then .infinity false
  else
    let (whole, rest) := s.span (isDigit 10)
    let (fraction, rest) := fractionPart rest
    match exponentPart rest with
    | none => .nan
    | some exponent =>
        if whole ++ fraction = [] then .nan
        else literal (scaled (digitsValue 10 (whole ++ fraction)) (exponent - fraction.length))

/-- The radix behind `0x`, `0o` or `0b`. -/
def radixPrefix : JsString → Option (Nat × JsString)
  | zero :: letter :: digits =>
      if zero ≠ 0x30 then none
      else if letter = 0x78 ∨ letter = 0x58 then some (16, digits)
      else if letter = 0x6F ∨ letter = 0x4F then some (8, digits)
      else if letter = 0x62 ∨ letter = 0x42 then some (2, digits)
      else none
  | _ => none

/-- `StringToNumber`; `trim` removes the same white space. -/
def stringToNumber (s : JsString) : JsNumber :=
  let s := trim s
  if s = [] then .finite 0
  else
    match radixPrefix s with
    | some (radix, digits) => nonDecimalLiteral radix digits
    | none =>
        let (negative, rest) := splitSign s
        if negative then negate (unsignedDecimal rest) else unsignedDecimal rest

end DecQueue.Numbers
