import Mathlib.Tactic.Common
import Mathlib.Tactic.Ring

/-! # Borsh

The byte format of account data: integers are little-endian of a fixed width,
a sequence is its length in four bytes followed by its items, an option is one
byte followed by its content. Encoders are functions to lists of bytes, and a
record is the concatenation of its fields. -/

namespace Kit.Borsh

variable {α : Type*}

/-! ### Little-endian integers -/

/-- The low `width` digits of `n` to the base 256. -/
def leBytes : Nat → Nat → List UInt8
  | 0, _ => []
  | width + 1, n => UInt8.ofNat n :: leBytes width (n / 256)

def leValue : List UInt8 → Nat
  | [] => 0
  | b :: bs => b.toNat + 256 * leValue bs

@[simp] theorem length_leBytes (width n : Nat) : (leBytes width n).length = width := by
  induction width generalizing n with
  | zero => rfl
  | succ width ih => simp only [leBytes, List.length_cons, ih]

theorem leValue_leBytes (width n : Nat) : leValue (leBytes width n) = n % 256 ^ width := by
  induction width generalizing n with
  | zero => simp only [leBytes, leValue, Nat.pow_zero, Nat.mod_one]
  | succ width ih =>
    have hdigit : (UInt8.ofNat n).toNat = n % 256 := UInt8.toNat_ofNat'
    have hsplit : n % (256 * 256 ^ width) = n % 256 + 256 * (n / 256 % 256 ^ width) :=
      Nat.mod_mul
    simp only [leBytes, leValue, ih, hdigit]
    rw [Nat.pow_succ', hsplit]

theorem leBytes_injective {width m n : Nat} (hm : m < 256 ^ width) (hn : n < 256 ^ width)
    (h : leBytes width m = leBytes width n) : m = n := by
  have hv := congrArg leValue h
  rw [leValue_leBytes, leValue_leBytes, Nat.mod_eq_of_lt hm, Nat.mod_eq_of_lt hn] at hv
  exact hv

/-! ### Encoders -/

def encodeBool (b : Bool) : List UInt8 := leBytes 1 b.toNat

def encodeInt64 (i : Int64) : List UInt8 := leBytes 8 i.toUInt64.toNat

def encodeVec (item : α → List UInt8) (l : List α) : List UInt8 :=
  leBytes 4 l.length ++ l.flatMap item

def encodeBytes (bytes : List UInt8) : List UInt8 := encodeVec (fun b => [b]) bytes

def encodeString (s : String) : List UInt8 := encodeBytes s.toUTF8.data.toList

def encodeOption (item : α → List UInt8) : Option α → List UInt8
  | none => leBytes 1 0
  | some a => leBytes 1 1 ++ item a

/-! ### Lengths -/

@[simp] theorem length_encodeBool (b : Bool) : (encodeBool b).length = 1 := length_leBytes ..

@[simp] theorem length_encodeInt64 (i : Int64) : (encodeInt64 i).length = 8 := length_leBytes ..

theorem length_flatMap_const {item : α → List UInt8} {size : Nat} (h : ∀ a, (item a).length = size)
    (l : List α) : (l.flatMap item).length = l.length * size := by
  induction l with
  | nil => simp only [List.flatMap_nil, List.length_nil, Nat.zero_mul]
  | cons a l ih =>
    simp only [List.flatMap_cons, List.length_append, List.length_cons, h, ih]
    ring

theorem length_encodeVec {item : α → List UInt8} {size : Nat} (h : ∀ a, (item a).length = size)
    (l : List α) : (encodeVec item l).length = 4 + l.length * size := by
  simp only [encodeVec, List.length_append, length_leBytes, length_flatMap_const h]

@[simp] theorem length_encodeBytes (bytes : List UInt8) : (encodeBytes bytes).length = 4 + bytes.length := by
  rw [encodeBytes, length_encodeVec fun _ => List.length_singleton, Nat.mul_one]

@[simp] theorem length_encodeString (s : String) : (encodeString s).length = 4 + s.utf8ByteSize := by
  rw [encodeString, length_encodeBytes, Array.length_toList]
  rfl

theorem length_encodeOption_le {item : α → List UInt8} {size : Nat} {x : Option α}
    (h : ∀ a ∈ x, (item a).length ≤ size) : (encodeOption item x).length ≤ 1 + size := by
  cases x with
  | none =>
    show (leBytes 1 0).length ≤ 1 + size
    rw [length_leBytes]
    omega
  | some a =>
    have ha := h a rfl
    simp only [encodeOption, List.length_append, length_leBytes]
    omega

end Kit.Borsh
