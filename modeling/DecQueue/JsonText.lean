import DecQueue.Utf16
import Mathlib.Data.Nat.Digits.Defs

/-! # JSON values and their text

`JSON.stringify` on the values that `JSON.parse` returns. An object lists its
properties in the order of enumeration, a number is given by its text. -/

namespace DecQueue.JsonText
open DecqueueCore Utf16

/-! ### Numerals -/

def digit (d : Nat) : UInt16 := UInt16.ofNat (if d < 10 then 0x30 + d else 0x57 + d)

theorem digit_ascii {d : Nat} (h : d < 36) : digit d < 0x80 := by
  have hlt : (if d < 10 then 0x30 + d else 0x57 + d) < 0x80 := by
    split <;> omega
  show (UInt16.ofNat _).toNat < 0x80
  rw [UInt16.toNat_ofNat_of_lt' (Nat.lt_trans hlt (by decide))]
  exact hlt

/-- `toString(radix)` of a natural number. -/
def numberToString (radix n : Nat) : JsString :=
  if n = 0 then [digit 0] else (Nat.digits radix n).reverse.map digit

theorem numberToString_ascii {radix : Nat} (hlow : 1 < radix) (hhigh : radix ≤ 36) (n : Nat) :
    Ascii (numberToString radix n) := by
  unfold numberToString
  split
  next => exact List.forall_mem_singleton.mpr (by decide)
  next =>
    intro u hu
    obtain ⟨d, hd, rfl⟩ := List.mem_map.mp hu
    have hlt := Nat.digits_lt_base hlow (List.mem_reverse.mp hd)
    exact digit_ascii (Nat.lt_of_lt_of_le hlt hhigh)

/-- A number by the text `JSON.stringify` writes for it: digits, sign, point
and exponent, or `null` when it is not finite. -/
structure Numeral where
  text : JsString
  ascii : Ascii text
  deriving DecidableEq

def decimal (n : Nat) : Numeral :=
  ⟨numberToString 10 n, numberToString_ascii (by decide) (by decide) n⟩

/-! ### Strings -/

/-- `UnicodeEscape`: a backslash, the letter u and four digits. -/
def unicodeEscape (u : UInt16) : JsString :=
  [0x5C, 0x75, digit (u.toNat / 0x1000), digit (u.toNat / 0x100 % 0x10), digit (u.toNat / 0x10 % 0x10),
    digit (u.toNat % 0x10)]

/-- A unit that is no half of a surrogate pair. -/
def quoteUnit (u : UInt16) : JsString :=
  if u = 0x08 then [0x5C, 0x62]
  else if u = 0x09 then [0x5C, 0x74]
  else if u = 0x0A then [0x5C, 0x6E]
  else if u = 0x0C then [0x5C, 0x66]
  else if u = 0x0D then [0x5C, 0x72]
  else if u = 0x22 then [0x5C, 0x22]
  else if u = 0x5C then [0x5C, 0x5C]
  else if u < 0x20 || isHighSurrogate u || isLowSurrogate u then unicodeEscape u
  else [u]

def quoteUnits : JsString → JsString
  | [] => []
  | [u] => quoteUnit u
  | u :: w :: rest =>
      if isHighSurrogate u && isLowSurrogate w then u :: w :: quoteUnits rest
      else quoteUnit u ++ quoteUnits (w :: rest)

/-- `QuoteJSONString`. -/
def quoteString (s : JsString) : JsString := [0x22] ++ quoteUnits s ++ [0x22]

-- a line feed, half a pair and a letter
example : quoteString [0x0A, 0xD800, 0xE9] =
    [0x22, 0x5C, 0x6E, 0x5C, 0x75, 0x64, 0x38, 0x30, 0x30, 0xE9, 0x22] := by decide

theorem unicodeEscape_ascii (u : UInt16) : Ascii (unicodeEscape u) := by
  have hu := u.toNat_lt
  have hmod : ∀ n, digit (n % 0x10) < 0x80 := fun n =>
    digit_ascii (Nat.lt_trans (Nat.mod_lt n (by decide)) (by decide))
  have hfirst : digit (u.toNat / 0x1000) < 0x80 := digit_ascii (by omega)
  simp only [Ascii, unicodeEscape, List.forall_mem_cons, hfirst, hmod, true_and]
  exact ⟨by decide, by decide, List.forall_mem_nil _⟩

theorem quoteUnit_ascii {u : UInt16} (h : u < 0x80) : Ascii (quoteUnit u) := by
  unfold quoteUnit
  split_ifs
  any_goals decide
  · exact unicodeEscape_ascii u
  · exact List.forall_mem_singleton.mpr h

theorem quoteUnits_ascii {s : JsString} (h : Ascii s) : Ascii (quoteUnits s) := by
  induction s using quoteUnits.induct with
  | case1 => exact h
  | case2 u => exact quoteUnit_ascii (h u (List.mem_singleton_self u))
  | case3 u w rest hpair =>
    have hu := (ascii_not_surrogate (h u (List.mem_cons_self ..))).1
    rw [hu] at hpair
    cases hpair
  | case4 u w rest hpair ih =>
    rw [quoteUnits, if_neg hpair]
    exact (quoteUnit_ascii (h u (List.mem_cons_self ..))).append
      (ih fun v hv => h v (List.mem_cons_of_mem u hv))

theorem quoteString_ascii {s : JsString} (h : Ascii s) : Ascii (quoteString s) := by
  have hquote : Ascii [0x22] := by decide
  exact (hquote.append (quoteUnits_ascii h)).append hquote

/-! ### Values -/

inductive Json where
  | null
  | bool (b : Bool)
  | number (n : Numeral)
  | string (s : JsString)
  | array (items : List Json)
  | object (properties : List (JsString × Json))

/-- The items of an array or the members of an object, separated by commas. -/
def join (texts : List JsString) : JsString := [0x2C].intercalate texts

mutual

def stringify : Json → JsString
  | .null => utf16 "null"
  | .bool b => if b then utf16 "true" else utf16 "false"
  | .number n => n.text
  | .string s => quoteString s
  | .array items => [0x5B] ++ join (itemTexts items) ++ [0x5D]
  | .object properties => [0x7B] ++ join (memberTexts properties) ++ [0x7D]

def itemTexts : List Json → List JsString
  | [] => []
  | v :: items => stringify v :: itemTexts items

def memberTexts : List (JsString × Json) → List JsString
  | [] => []
  | (name, v) :: properties => (quoteString name ++ [0x3A] ++ stringify v) :: memberTexts properties

end

/-- What stands before the value of a property that follows `properties`. -/
def textBefore (properties : List (JsString × Json)) (name : JsString) : JsString :=
  [0x7B] ++ (memberTexts properties).flatMap (· ++ [0x2C]) ++ quoteString name ++ [0x3A]

def textAfter (properties : List (JsString × Json)) : JsString :=
  (memberTexts properties).flatMap ([0x2C] ++ ·) ++ [0x7D]

theorem join_append_cons (before : List JsString) (text : JsString) (after : List JsString) :
    join (before ++ text :: after) =
      before.flatMap (· ++ [0x2C]) ++ text ++ after.flatMap ([0x2C] ++ ·) := by
  have htail : ∀ (t : JsString) (rest : List JsString),
      join (t :: rest) = t ++ rest.flatMap ([0x2C] ++ ·) := by
    intro t rest
    induction rest generalizing t with
    | nil => simp only [join, List.intercalate_singleton, List.flatMap_nil, List.append_nil]
    | cons r rest ih =>
      have hcons : join (t :: r :: rest) = t ++ [0x2C] ++ join (r :: rest) :=
        List.intercalate_cons_cons
      rw [hcons, ih, List.flatMap_cons, List.append_assoc, List.append_assoc]
  induction before with
  | nil => exact htail text after
  | cons b before ih =>
    have hcons : join (b :: (before ++ text :: after)) = b ++ [0x2C] ++ join (before ++ text :: after) :=
      List.intercalate_cons_of_ne_nil (List.append_ne_nil_of_right_ne_nil _ (List.cons_ne_nil text after))
    rw [List.cons_append, hcons, ih, List.flatMap_cons]
    simp only [List.append_assoc]

theorem memberTexts_append (before after : List (JsString × Json)) :
    memberTexts (before ++ after) = memberTexts before ++ memberTexts after := by
  induction before with
  | nil => rfl
  | cons p before ih =>
    obtain ⟨name, v⟩ := p
    simp only [List.cons_append, memberTexts, ih]

/-- The text of an object around one of its values. -/
theorem stringify_object (before : List (JsString × Json)) (name : JsString) (v : Json)
    (after : List (JsString × Json)) :
    stringify (.object (before ++ (name, v) :: after)) =
      textBefore before name ++ stringify v ++ textAfter after := by
  simp only [stringify, memberTexts_append, memberTexts, join_append_cons, textBefore, textAfter,
    List.append_assoc]

/-! Properties in ASCII leave an ASCII text around the value. -/

def Plain (properties : List (JsString × Json)) : Prop :=
  ∀ p ∈ properties, Ascii p.1 ∧ Ascii (stringify p.2)

theorem memberTexts_ascii {properties : List (JsString × Json)} (h : Plain properties) :
    ∀ t ∈ memberTexts properties, Ascii t := by
  induction properties with
  | nil => exact List.forall_mem_nil _
  | cons p properties ih =>
    obtain ⟨name, v⟩ := p
    obtain ⟨hname, hv⟩ := h (name, v) (List.mem_cons_self ..)
    have hcolon : Ascii [0x3A] := by decide
    rw [memberTexts, List.forall_mem_cons]
    exact ⟨((quoteString_ascii hname).append hcolon).append hv,
      ih fun q hq => h q (List.mem_cons_of_mem _ hq)⟩

theorem flatMap_ascii {texts : List JsString} {f : JsString → JsString} (h : ∀ t ∈ texts, Ascii t)
    (hf : ∀ t, Ascii t → Ascii (f t)) : Ascii (texts.flatMap f) := by
  intro u hu
  obtain ⟨t, ht, hmem⟩ := List.mem_flatMap.mp hu
  exact hf t (h t ht) u hmem

theorem textBefore_ascii {properties : List (JsString × Json)} {name : JsString}
    (h : Plain properties) (hname : Ascii name) : Ascii (textBefore properties name) := by
  have hbrace : Ascii [0x7B] := by decide
  have hcolon : Ascii [0x3A] := by decide
  have hcomma : Ascii [0x2C] := by decide
  have hmembers := flatMap_ascii (memberTexts_ascii h) fun t ht => ht.append hcomma
  exact ((hbrace.append hmembers).append (quoteString_ascii hname)).append hcolon

theorem textAfter_ascii {properties : List (JsString × Json)} (h : Plain properties) :
    Ascii (textAfter properties) := by
  have hbrace : Ascii [0x7D] := by decide
  have hcomma : Ascii [0x2C] := by decide
  have hmembers := flatMap_ascii (memberTexts_ascii h) fun t ht => hcomma.append ht
  exact hmembers.append hbrace

end DecQueue.JsonText
