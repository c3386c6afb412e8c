import DecQueue.JsonText

/-! # Reading JSON text back (`JSON.parse`)

A recursive descent over the code units. A member of an object replaces an
earlier one of the same name, and array indices are enumerated before all other
names. What number a literal stands for is left to `ofLiteral`. The nesting is
a recursion, so the functions take fuel; twice the length of the text is
always enough. -/

namespace DecQueue.JsonParse
open DecqueueCore Utf16 JsonText

/-! ### Tokens -/

def isBlank (u : UInt16) : Bool := u == 0x20 || u == 0x09 || u == 0x0A || u == 0x0D

def skipBlanks (text : JsString) : JsString := text.dropWhile isBlank

def isDigit (u : UInt16) : Bool := 0x30 ≤ u && u ≤ 0x39

def skipDigits (text : JsString) : JsString := text.dropWhile isDigit

/-- At least one digit. -/
def skipNumeral : JsString → Option JsString
  | [] => none
  | u :: rest => if isDigit u then some (skipDigits rest) else none

def skipMinus : JsString → JsString
  | [] => []
  | u :: rest => if u = 0x2D then rest else u :: rest

/-- No digit follows a leading zero. -/
def skipInteger : JsString → Option JsString
  | [] => none
  | u :: rest => if u = 0x30 then some rest else skipNumeral (u :: rest)

def skipFraction : JsString → Option JsString
  | [] => some []
  | u :: rest => if u = 0x2E then skipNumeral rest else some (u :: rest)

def skipSign : JsString → JsString
  | [] => []
  | u :: rest => if u = 0x2B || u = 0x2D then rest else u :: rest

def skipExponent : JsString → Option JsString
  | [] => some []
  | u :: rest => if u = 0x65 || u = 0x45 then skipNumeral (skipSign rest) else some (u :: rest)

/-- What follows the longest number literal. -/
def skipNumber (text : JsString) : Option JsString := do
  let text ← skipInteger (skipMinus text)
  let text ← skipFraction text
  skipExponent text

def hexValue (u : UInt16) : Option Nat :=
  if 0x30 ≤ u && u ≤ 0x39 then some (u.toNat - 0x30)
  else if 0x61 ≤ u && u ≤ 0x66 then some (u.toNat - 0x57)
  else if 0x41 ≤ u && u ≤ 0x46 then some (u.toNat - 0x37)
  else none

def hexUnit (a b c d : UInt16) : Option UInt16 := do
  let a ← hexValue a
  let b ← hexValue b
  let c ← hexValue c
  let d ← hexValue d
  some (UInt16.ofNat (a * 0x1000 + b * 0x100 + c * 0x10 + d))

/-- The escapes of one letter. -/
def escaped (u : UInt16) : Option UInt16 :=
  if u = 0x22 || u = 0x5C || u = 0x2F then some u
  else if u = 0x62 then some 0x08
  else if u = 0x66 then some 0x0C
  else if u = 0x6E then some 0x0A
  else if u = 0x72 then some 0x0D
  else if u = 0x74 then some 0x09
  else none

def prepend {α β : Type} (a : α) (parsed : List α × β) : List α × β := (a :: parsed.1, parsed.2)

/-- The rest of a string literal, from behind the opening quotation mark. -/
def parseString : JsString → Option (JsString × JsString)
  | [] => none
  | u :: rest =>
      if u = 0x22 then some ([], rest)
      else if u < 0x20 then none
      else if u = 0x5C then
        match rest with
        | 0x75 :: a :: b :: c :: d :: rest => do
            let v ← hexUnit a b c d
            (parseString rest).map (prepend v)
        | v :: rest => do
            let v ← escaped v
            (parseString rest).map (prepend v)
        | [] => none
      else (parseString rest).map (prepend u)

/-! ### Objects -/

/-- `CreateDataProperty`. -/
def putProperty (properties : List (JsString × Json)) (name : JsString) (v : Json) :
    List (JsString × Json) :=
  if properties.any fun p => p.1 = name then
    properties.map fun p => if p.1 = name then (name, v) else p
  else properties ++ [(name, v)]

def decimalValue (s : JsString) : Nat := s.foldl (fun n u => 10 * n + (u.toNat - 0x30)) 0

/-- An array index in its canonical form. -/
def arrayIndex (name : JsString) : Option Nat :=
  if numberToString 10 (decimalValue name) = name ∧ decimalValue name < 2 ^ 32 - 1 then
    some (decimalValue name)
  else none

def insertIndex (i : Nat) (p : JsString × Json) :
    List (Nat × JsString × Json) → List (Nat × JsString × Json)
  | [] => [(i, p)]
  | q :: rest => if i < q.1 then (i, p) :: q :: rest else q :: insertIndex i p rest

def sortIndices : List (JsString × Json) → List (Nat × JsString × Json)
  | [] => []
  | p :: properties =>
      match arrayIndex p.1 with
      | some i => insertIndex i p (sortIndices properties)
      | none => sortIndices properties

/-- `OrdinaryOwnPropertyKeys`: indices in ascending order, then names in the
order of their creation. -/
def enumerate (properties : List (JsString × Json)) : List (JsString × Json) :=
  (sortIndices properties).map Prod.snd ++ properties.filter fun p => (arrayIndex p.1).isNone

def createObject (members : List (JsString × Json)) : List (JsString × Json) :=
  enumerate (members.foldl (fun properties p => putProperty properties p.1 p.2) [])

/-! ### Values -/

def literal (word : JsString) (v : Json) (text : JsString) : Option (Json × JsString) :=
  if word.isPrefixOf text then some (v, text.drop word.length) else none

section
variable (ofLiteral : JsString → Numeral)

def parseNumber (text : JsString) : Option (Json × JsString) :=
  (skipNumber text).map fun rest =>
    (.number (ofLiteral (text.take (text.length - rest.length))), rest)

mutual

def parseValue : Nat → JsString → Option (Json × JsString)
  | 0, _ => none
  | fuel + 1, text =>
      match skipBlanks text with
      | [] => none
      | u :: rest =>
          if u = 0x22 then (parseString rest).map fun parsed => (.string parsed.1, parsed.2)
          else if u = 0x5B then
            match skipBlanks rest with
            | [] => none
            | w :: after =>
                if w = 0x5D then some (.array [], after)
                else (parseItems fuel rest).map fun parsed => (.array parsed.1, parsed.2)
          else if u = 0x7B then
            match skipBlanks rest with
            | [] => none
            | w :: after =>
                if w = 0x7D then some (.object [], after)
                else (parseMembers fuel rest).map fun parsed => (.object (createObject parsed.1), parsed.2)
          else if u = 0x74 then literal (utf16 "true") (.bool true) (u :: rest)
          else if u = 0x66 then literal (utf16 "false") (.bool false) (u :: rest)
          else if u = 0x6E then literal (utf16 "null") .null (u :: rest)
          else parseNumber ofLiteral (u :: rest)

/-- Items up to the closing bracket. -/
def parseItems : Nat → JsString → Option (List Json × JsString)
  | 0, _ => none
  | fuel + 1, text => do
      let (v, rest) ← parseValue fuel text
      match skipBlanks rest with
      | [] => none
      | u :: rest =>
          if u = 0x2C then (parseItems fuel rest).map (prepend v)
          else if u = 0x5D then some ([v], rest)
          else none

/-- Members up to the closing brace. -/
def parseMembers : Nat → JsString → Option (List (JsString × Json) × JsString)
  | 0, _ => none
  | fuel + 1, text =>
      match skipBlanks text with
      | [] => none
      | u :: rest =>
          if u = 0x22 then do
            let (name, rest) ← parseString rest
            match skipBlanks rest with
            | [] => none
            | c :: rest =>
                if c = 0x3A then do
                  let (v, rest) ← parseValue fuel rest
                  match skipBlanks rest with
                  | [] => none
                  | u :: rest =>
                      if u = 0x2C then (parseMembers fuel rest).map (prepend (name, v))
                      else if u = 0x7D then some ([(name, v)], rest)
                      else none
                else none
          else none

end

/-- `JSON.parse`; the message of its `SyntaxError` depends on the platform. -/
def parse (text : JsString) : Except String Json :=
  match parseValue ofLiteral (2 * text.length + 1) text with
  | some (v, rest) => if skipBlanks rest = [] then .ok v else .error "SyntaxError"
  | none => .error "SyntaxError"

end

/-! ### Numbers end where the text goes on with something else -/

def Stops (rest : JsString) : Prop :=
  ∀ u ∈ rest.head?, isDigit u = false ∧ u ≠ 0x2E ∧ u ≠ 0x65 ∧ u ≠ 0x45

theorem stops_cons {u : UInt16} (rest : JsString)
    (h : isDigit u = false ∧ u ≠ 0x2E ∧ u ≠ 0x65 ∧ u ≠ 0x45) : Stops (u :: rest) := by
  intro w hw
  cases hw
  exact h

section
variable {rest : JsString} (hrest : Stops rest)
include hrest

theorem skipDigits_append (text : JsString) : skipDigits (text ++ rest) = skipDigits text ++ rest := by
  induction text with
  | nil =>
    cases rest with
    | nil => rfl
    | cons u rest =>
      have hu := (hrest u rfl).1
      simp only [skipDigits, List.nil_append, List.dropWhile_cons, hu, Bool.false_eq_true, if_false,
        List.dropWhile_nil]
  | cons u text ih =>
    unfold skipDigits at ih ⊢
    rw [List.cons_append, List.dropWhile_cons, List.dropWhile_cons]
    split
    · exact ih
    · rfl

theorem skipNumeral_append {text t : JsString} (h : skipNumeral text = some t) :
    skipNumeral (text ++ rest) = some (t ++ rest) := by
  cases text with
  | nil => cases h
  | cons u text =>
    simp only [skipNumeral, List.cons_append] at h ⊢
    split at h
    next hu =>
      cases h
      rw [if_pos hu, skipDigits_append hrest]
    next => cases h

theorem skipInteger_append {text t : JsString} (h : skipInteger text = some t) :
    skipInteger (text ++ rest) = some (t ++ rest) := by
  cases text with
  | nil => cases h
  | cons u text =>
    simp only [skipInteger, List.cons_append] at h ⊢
    split at h
    next hu =>
      cases h
      rw [if_pos hu]
    next hu =>
      rw [if_neg hu]
      exact skipNumeral_append hrest h

theorem skipFraction_append {text t : JsString} (h : skipFraction text = some t) :
    skipFraction (text ++ rest) = some (t ++ rest) := by
  cases text with
  | nil =>
    cases h
    cases rest with
    | nil => rfl
    | cons u rest => exact if_neg (hrest u rfl).2.1
  | cons u text =>
    simp only [skipFraction, List.cons_append] at h ⊢
    split at h
    next hu =>
      rw [if_pos hu]
      exact skipNumeral_append hrest h
    next hu =>
      cases h
      rw [if_neg hu, List.cons_append]

theorem skipExponent_append {text t : JsString} (h : skipExponent text = some t) :
    skipExponent (text ++ rest) = some (t ++ rest) := by
  cases text with
  | nil =>
    cases h
    cases rest with
    | nil => rfl
    | cons u rest =>
      obtain ⟨_, _, hsmall, hlarge⟩ := hrest u rfl
      simp only [skipExponent, List.nil_append, hsmall, hlarge, decide_false, Bool.or_self,
        Bool.false_eq_true, if_false]
  | cons u text =>
    simp only [skipExponent, List.cons_append] at h ⊢
    split at h
    next hu =>
      rw [if_pos hu]
      cases text with
      | nil => cases h
      | cons w text =>
        simp only [skipSign, List.cons_append] at h ⊢
        split
        next hw => exact skipNumeral_append hrest (by rwa [if_pos hw] at h)
        next hw => exact skipNumeral_append hrest (by rwa [if_neg hw] at h)
    next hu =>
      cases h
      rw [if_neg hu, List.cons_append]

theorem skipNumber_append {text t : JsString} (h : skipNumber text = some t) :
    skipNumber (text ++ rest) = some (t ++ rest) := by
  simp only [skipNumber, Option.bind_eq_bind, Option.bind_eq_some_iff] at h ⊢
  obtain ⟨a, ha, b, hb, ht⟩ := h
  refine ⟨a ++ rest, ?_, b ++ rest, skipFraction_append hrest hb, skipExponent_append hrest ht⟩
  cases text with
  | nil => cases ha
  | cons u text =>
    simp only [skipMinus, List.cons_append] at ha ⊢
    split
    next hu => exact skipInteger_append hrest (by rwa [if_pos hu] at ha)
    next hu => exact skipInteger_append hrest (by rwa [if_neg hu] at ha)

end

/-- A numeral that is a whole literal is read back as such. -/
theorem parseNumber_append (ofLiteral : JsString → Numeral) {text rest : JsString}
    (h : skipNumber text = some []) (hrest : Stops rest) :
    parseNumber ofLiteral (text ++ rest) = some (.number (ofLiteral text), rest) := by
  have hskip : skipNumber (text ++ rest) = some rest := skipNumber_append hrest h
  have htake : (text ++ rest).take ((text ++ rest).length - rest.length) = text := by
    rw [List.length_append, Nat.add_sub_cancel]
    exact List.take_left
  rw [parseNumber, hskip, Option.map_some, htake]

/-! ### Strings are read back -/

theorem hexValue_digit : ∀ n < 16, hexValue (digit n) = some n := by decide

theorem hexUnit_digits (u : UInt16) :
    hexUnit (digit (u.toNat / 0x1000)) (digit (u.toNat / 0x100 % 0x10)) (digit (u.toNat / 0x10 % 0x10))
      (digit (u.toNat % 0x10)) = some u := by
  have hu := u.toNat_lt
  have hfirst := hexValue_digit (u.toNat / 0x1000) (by omega)
  have hmod : ∀ n, hexValue (digit (n % 0x10)) = some (n % 0x10) := fun n =>
    hexValue_digit _ (Nat.mod_lt n (by decide))
  have hsum : u.toNat / 0x1000 * 0x1000 + u.toNat / 0x100 % 0x10 * 0x100 + u.toNat / 0x10 % 0x10 * 0x10 +
      u.toNat % 0x10 = u.toNat := by omega
  simp only [hexUnit, hfirst, hmod, Option.bind_eq_bind, Option.bind_some, hsum, UInt16.ofNat_toNat]

theorem parseString_plain {u : UInt16} (hquote : u ≠ 0x22) (hslash : u ≠ 0x5C) (hcontrol : ¬u < 0x20)
    (text : JsString) : parseString (u :: text) = (parseString text).map (prepend u) := by
  rw [parseString.eq_def]
  simp only [hquote, hcontrol, hslash, if_false]

theorem parseString_escape {v u : UInt16} (hv : v ≠ 0x75) (h : escaped v = some u) (text : JsString) :
    parseString (0x5C :: v :: text) = (parseString text).map (prepend u) := by
  rw [parseString.eq_def]
  simp only [show ¬(0x5C : UInt16) = 0x22 by decide, show ¬(0x5C : UInt16) < 0x20 by decide, if_false,
    if_true]
  split
  next he => exact absurd (List.cons.inj he).1 hv
  next he =>
    obtain ⟨rfl, rfl⟩ := List.cons.inj he
    rw [h]
    rfl
  next he => cases he

theorem parseString_unicodeEscape (u : UInt16) (text : JsString) :
    parseString (unicodeEscape u ++ text) = (parseString text).map (prepend u) := by
  rw [parseString.eq_def]
  simp only [unicodeEscape, List.cons_append, List.nil_append, show ¬(0x5C : UInt16) = 0x22 by decide,
    show ¬(0x5C : UInt16) < 0x20 by decide, if_false, if_true, hexUnit_digits]
  rfl

theorem parseString_quoteUnit (u : UInt16) (text : JsString) :
    parseString (quoteUnit u ++ text) = (parseString text).map (prepend u) := by
  unfold quoteUnit
  split_ifs with h₁ h₂ h₃ h₄ h₅ h₆ h₇ h₈
  · subst h₁
    exact parseString_escape (by decide) rfl text
  · subst h₂
    exact parseString_escape (by decide) rfl text
  · subst h₃
    exact parseString_escape (by decide) rfl text
  · subst h₄
    exact parseString_escape (by decide) rfl text
  · subst h₅
    exact parseString_escape (by decide) rfl text
  · subst h₆
    exact parseString_escape (by decide) rfl text
  · subst h₇
    exact parseString_escape (by decide) rfl text
  · exact parseString_unicodeEscape u text
  · simp only [Bool.or_eq_true, decide_eq_true_eq, not_or] at h₈
    exact parseString_plain h₆ h₇ h₈.1.1 text

theorem parseString_quoteUnits (s rest : JsString) :
    parseString (quoteUnits s ++ 0x22 :: rest) = some (s, rest) := by
  have hend : parseString (0x22 :: rest) = some ([], rest) := by
    rw [parseString.eq_def]
    exact if_pos rfl
  induction s using quoteUnits.induct with
  | case1 => exact hend
  | case2 u => rw [quoteUnits, parseString_quoteUnit, hend, Option.map_some, prepend]
  | case3 u w text hpair ih =>
    obtain ⟨hhigh, hlow⟩ := (Bool.and_eq_true ..).mp hpair
    rw [isHighSurrogate_iff] at hhigh
    rw [isLowSurrogate_iff] at hlow
    have hplain : ∀ v : UInt16, 0xD800 ≤ v.toNat → v ≠ 0x22 ∧ v ≠ 0x5C ∧ ¬v < 0x20 := by
      intro v hv
      have hlt : v < 0x20 ↔ v.toNat < 0x20 := Iff.rfl
      refine ⟨?_, ?_, ?_⟩
      · rintro rfl
        exact absurd hv (by decide)
      · rintro rfl
        exact absurd hv (by decide)
      · rw [hlt]
        omega
    obtain ⟨hu₁, hu₂, hu₃⟩ := hplain u hhigh.1
    obtain ⟨hw₁, hw₂, hw₃⟩ := hplain w (by omega)
    rw [quoteUnits, if_pos hpair, List.cons_append, List.cons_append, parseString_plain hu₁ hu₂ hu₃,
      parseString_plain hw₁ hw₂ hw₃, ih, Option.map_some, Option.map_some, prepend, prepend]
  | case4 u w text hpair ih =>
    rw [quoteUnits, if_neg hpair, List.append_assoc, parseString_quoteUnit, ih, Option.map_some, prepend]

/-! ### Values are read back -/

section
variable (ofLiteral : JsString → Numeral)

mutual

/-- The value is one that a parser of the platform returns: its numbers are
finite, each the one its text stands for, and its objects are in the order of
enumeration. -/
def Canonical : Json → Prop
  | .null | .bool _ | .string _ => True
  | .number n => skipNumber n.text = some [] ∧ ofLiteral n.text = n
  | .array items => CanonicalItems items
  | .object properties => createObject properties = properties ∧ CanonicalMembers properties

def CanonicalItems : List Json → Prop
  | [] => True
  | v :: items => Canonical v ∧ CanonicalItems items

def CanonicalMembers : List (JsString × Json) → Prop
  | [] => True
  | (_, v) :: properties => Canonical v ∧ CanonicalMembers properties

end

end

mutual

/-- The fuel that reading the text of a value takes. -/
def cost : Json → Nat
  | .null | .bool _ | .number _ | .string _ => 1
  | .array items => costItems items + 1
  | .object properties => costMembers properties + 1

def costItems : List Json → Nat
  | [] => 0
  | v :: items => max (cost v) (costItems items) + 1

def costMembers : List (JsString × Json) → Nat
  | [] => 0
  | (_, v) :: properties => max (cost v) (costMembers properties) + 1

end

theorem join_cons_cons (t r : JsString) (texts : List JsString) :
    join (t :: r :: texts) = t ++ 0x2C :: join (r :: texts) := by
  rw [join, List.intercalate_cons_cons, join, List.append_assoc]
  rfl

mutual

theorem cost_le : ∀ v : Json, cost v ≤ 2 * (stringify v).length + 1
  | .null | .bool _ | .number _ | .string _ => by
    simp only [cost]
    omega
  | .array items => by
    have hitems := costItems_le items
    simp only [cost, stringify, List.length_append, List.length_singleton]
    omega
  | .object properties => by
    have hmembers := costMembers_le properties
    simp only [cost, stringify, List.length_append, List.length_singleton]
    omega

theorem costItems_le : ∀ items : List Json, costItems items ≤ 2 * (join (itemTexts items)).length + 2
  | [] => by
    simp only [costItems]
    omega
  | [v] => by
    have hv := cost_le v
    simp only [costItems, itemTexts, join, List.intercalate_singleton]
    omega
  | v :: w :: items => by
    have hv := cost_le v
    have hitems := costItems_le (w :: items)
    simp only [costItems, itemTexts, join_cons_cons, List.length_append, List.length_cons] at hitems ⊢
    omega

theorem costMembers_le : ∀ properties : List (JsString × Json),
    costMembers properties ≤ 2 * (join (memberTexts properties)).length + 2
  | [] => by
    simp only [costMembers]
    omega
  | [(name, v)] => by
    have hv := cost_le v
    simp only [costMembers, memberTexts, join, List.intercalate_singleton, List.length_append]
    omega
  | (name, v) :: (name', w) :: properties => by
    have hv := cost_le v
    have hmembers := costMembers_le ((name', w) :: properties)
    simp only [costMembers, memberTexts, join_cons_cons, List.length_append, List.length_cons]
      at hmembers ⊢
    omega

end

theorem skipBlanks_cons {u : UInt16} (h : isBlank u = false) (text : JsString) :
    skipBlanks (u :: text) = u :: text := by
  simp only [skipBlanks, List.dropWhile_cons, h, Bool.false_eq_true, if_false]

theorem literal_append (word : JsString) (v : Json) (rest : JsString) :
    literal word v (word ++ rest) = some (v, rest) := by
  have hprefix : word.isPrefixOf (word ++ rest) = true := List.isPrefixOf_iff_prefix.mpr ⟨rest, rfl⟩
  rw [literal, if_pos hprefix, List.drop_left]

/-- What a value starts with: an ASCII unit, no blank and no closing bracket. -/
def Opens (u : UInt16) : Prop := isBlank u = false ∧ u ≠ 0x5D ∧ u < 0x80

theorem opens_digit {u : UInt16} (h : u = 0x2D ∨ isDigit u = true) :
    Opens u ∧ u ≠ 0x22 ∧ u ≠ 0x5B ∧ u ≠ 0x7B ∧ u ≠ 0x74 ∧ u ≠ 0x66 ∧ u ≠ 0x6E := by
  obtain rfl | hdigit := h
  · refine ⟨⟨?_, ?_, ?_⟩, ?_, ?_, ?_, ?_, ?_, ?_⟩ <;> decide
  · have hne : ∀ w, isDigit w = false → u ≠ w := by
      rintro w hw rfl
      rw [hw] at hdigit
      cases hdigit
    have hblank : isBlank u = false := by
      simp only [isBlank, Bool.or_eq_false_iff, beq_eq_false_iff_ne]
      exact ⟨⟨⟨hne _ (by decide), hne _ (by decide)⟩, hne _ (by decide)⟩, hne _ (by decide)⟩
    have hascii : u < 0x80 := by
      have hle : u.toNat ≤ 0x39 := of_decide_eq_true ((Bool.and_eq_true ..).mp hdigit).2
      have hlt : u < 0x80 ↔ u.toNat < 0x80 := Iff.rfl
      rw [hlt]
      omega
    refine ⟨⟨hblank, hne _ ?_, hascii⟩, hne _ ?_, hne _ ?_, hne _ ?_, hne _ ?_, hne _ ?_, hne _ ?_⟩ <;> decide

theorem number_head {text rest : JsString} (h : skipNumber text = some rest) :
    ∃ u t, text = u :: t ∧ (u = 0x2D ∨ isDigit u = true) := by
  cases text with
  | nil => cases h
  | cons u t =>
    refine ⟨u, t, rfl, ?_⟩
    by_cases hu : u = 0x2D
    · exact .inl hu
    · refine .inr ?_
      simp only [skipNumber, skipMinus, if_neg hu, Option.bind_eq_bind, Option.bind_eq_some_iff] at h
      obtain ⟨a, ha, _⟩ := h
      simp only [skipInteger, skipNumeral] at ha
      split at ha
      next hzero =>
        rw [hzero]
        decide
      next =>
        split at ha
        next hdigit => exact hdigit
        next => cases ha

section
variable {ofLiteral : JsString → Numeral}

theorem stringify_head {v : Json} (h : Canonical ofLiteral v) :
    ∃ u t, stringify v = u :: t ∧ Opens u := by
  cases v with
  | null => exact ⟨_, _, rfl, by decide, by decide, by decide⟩
  | bool b =>
    cases b with
    | false => exact ⟨_, _, rfl, by decide, by decide, by decide⟩
    | true => exact ⟨_, _, rfl, by decide, by decide, by decide⟩
  | number n =>
    obtain ⟨u, t, htext, hu⟩ := number_head h.1
    exact ⟨u, t, htext, (opens_digit hu).1⟩
  | string s => exact ⟨_, _, rfl, by decide, by decide, by decide⟩
  | array items =>
    rw [stringify]
    exact ⟨_, _, rfl, by decide, by decide, by decide⟩
  | object properties =>
    rw [stringify]
    exact ⟨_, _, rfl, by decide, by decide, by decide⟩

theorem items_head {items : List Json} (hne : items ≠ []) (h : CanonicalItems ofLiteral items)
    (rest : JsString) : ∃ u t, join (itemTexts items) ++ rest = u :: t ∧ Opens u := by
  match items, h with
  | [v], h =>
    obtain ⟨u, t, hv, hu⟩ := stringify_head h.1
    refine ⟨u, t ++ rest, ?_, hu⟩
    rw [itemTexts, itemTexts, join, List.intercalate_singleton, hv, List.cons_append]
  | v :: w :: items, h =>
    obtain ⟨u, t, hv, hu⟩ := stringify_head h.1
    refine ⟨u, t ++ (0x2C :: join (itemTexts (w :: items))) ++ rest, ?_, hu⟩
    rw [itemTexts, itemTexts, join_cons_cons, hv]
    rfl

theorem members_head {properties : List (JsString × Json)} (hne : properties ≠ []) (rest : JsString) :
    ∃ t, join (memberTexts properties) ++ rest = 0x22 :: t := by
  match properties with
  | [(name, v)] =>
    rw [memberTexts, memberTexts, join, List.intercalate_singleton]
    exact ⟨_, rfl⟩
  | (name, v) :: (name', w) :: properties =>
    rw [memberTexts, memberTexts, join_cons_cons]
    exact ⟨_, rfl⟩

/-- The name of a member and its colon. -/
theorem member_text (name : JsString) (v : Json) (rest : JsString) :
    quoteString name ++ [0x3A] ++ stringify v ++ rest =
      0x22 :: (quoteUnits name ++ 0x22 :: 0x3A :: (stringify v ++ rest)) := by
  simp only [quoteString, List.append_assoc, List.cons_append, List.nil_append]

mutual

theorem parseValue_stringify : ∀ {v : Json} {fuel : Nat} {rest : JsString}, Canonical ofLiteral v →
    cost v ≤ fuel → Stops rest → parseValue ofLiteral fuel (stringify v ++ rest) = some (v, rest)
  | v, 0, _, _, hfuel, _ => by
    cases v <;> simp only [cost] at hfuel <;> omega
  | .null, fuel + 1, rest, _, _, _ => by
    have hword := literal_append (utf16 "null") .null rest
    rw [stringify, parseValue]
    exact hword
  | .bool true, fuel + 1, rest, _, _, _ => by
    have hword := literal_append (utf16 "true") (.bool true) rest
    rw [stringify, parseValue]
    exact hword
  | .bool false, fuel + 1, rest, _, _, _ => by
    have hword := literal_append (utf16 "false") (.bool false) rest
    rw [stringify, parseValue]
    exact hword
  | .number n, fuel + 1, rest, h, _, hrest => by
    obtain ⟨hskip, hread⟩ := h
    have hparse : parseNumber ofLiteral (n.text ++ rest) = some (.number n, rest) := by
      rw [parseNumber_append ofLiteral hskip hrest, hread]
    obtain ⟨u, t, htext, hu⟩ := number_head hskip
    obtain ⟨⟨hblank, _, _⟩, h₁, h₂, h₃, h₄, h₅, h₆⟩ := opens_digit hu
    rw [stringify, parseValue, htext, List.cons_append, skipBlanks_cons hblank]
    simp only [if_neg h₁, if_neg h₂, if_neg h₃, if_neg h₄, if_neg h₅, if_neg h₆]
    rw [← List.cons_append, ← htext]
    exact hparse
  | .string s, fuel + 1, rest, _, _, _ => by
    have hparse := parseString_quoteUnits s rest
    rw [stringify, parseValue, quoteString, List.append_assoc, List.append_assoc, List.singleton_append,
      List.singleton_append, skipBlanks_cons (by decide)]
    simp only [if_true, hparse, Option.map_some]
  | .array [], fuel + 1, rest, _, _, _ => by
    rw [stringify, parseValue]
    rfl
  | .array (v :: items), fuel + 1, rest, h, hfuel, _ => by
    have hitems : parseItems ofLiteral fuel (join (itemTexts (v :: items)) ++ 0x5D :: rest) =
        some (v :: items, rest) :=
      parseItems_join (List.cons_ne_nil v items) h (Nat.le_of_succ_le_succ hfuel)
    obtain ⟨u, t, htext, hblank, hclose, _⟩ := items_head (List.cons_ne_nil v items) h (0x5D :: rest)
    rw [stringify, parseValue, List.append_assoc, List.append_assoc, List.singleton_append,
      List.singleton_append, skipBlanks_cons (by decide)]
    simp only [show ¬(0x5B : UInt16) = 0x22 by decide, if_false, if_true]
    rw [htext] at hitems ⊢
    simp only [skipBlanks_cons hblank, if_neg hclose, hitems, Option.map_some]
  | .object [], fuel + 1, rest, _, _, _ => by
    rw [stringify, parseValue]
    rfl
  | .object (p :: properties), fuel + 1, rest, h, hfuel, _ => by
    have hmembers : parseMembers ofLiteral fuel (join (memberTexts (p :: properties)) ++ 0x7D :: rest) =
        some (p :: properties, rest) :=
      parseMembers_join (List.cons_ne_nil p properties) h.2 (Nat.le_of_succ_le_succ hfuel)
    obtain ⟨t, htext⟩ := members_head (List.cons_ne_nil p properties) (0x7D :: rest)
    rw [stringify, parseValue, List.append_assoc, List.append_assoc, List.singleton_append,
      List.singleton_append, skipBlanks_cons (by decide)]
    simp only [show ¬(0x7B : UInt16) = 0x22 by decide, show ¬(0x7B : UInt16) = 0x5B by decide, if_false,
      if_true]
    rw [htext] at hmembers ⊢
    simp only [skipBlanks_cons (show isBlank 0x22 = false by decide),
      show ¬(0x22 : UInt16) = 0x7D by decide, if_false, hmembers, Option.map_some, h.1]

theorem parseItems_join : ∀ {items : List Json} {fuel : Nat} {rest : JsString}, items ≠ [] →
    CanonicalItems ofLiteral items → costItems items ≤ fuel →
      parseItems ofLiteral fuel (join (itemTexts items) ++ 0x5D :: rest) = some (items, rest)
  | [], _, _, hne, _, _ => absurd rfl hne
  | v :: items, 0, _, _, _, hfuel => by
    simp only [costItems] at hfuel
    omega
  | [v], fuel + 1, rest, _, h, hfuel => by
    have hle : cost v ≤ fuel := by
      simp only [costItems] at hfuel
      omega
    have hv := parseValue_stringify h.1 hle (stops_cons (u := 0x5D) rest (by decide))
    rw [itemTexts, itemTexts, join, List.intercalate_singleton, parseItems]
    simp only [hv, Option.bind_eq_bind, Option.bind_some, skipBlanks_cons (show isBlank 0x5D = false by decide),
      show ¬(0x5D : UInt16) = 0x2C by decide, if_false, if_true]
  | v :: w :: items, fuel + 1, rest, _, h, hfuel => by
    have hle : cost v ≤ fuel ∧ costItems (w :: items) ≤ fuel := by
      rw [costItems] at hfuel
      omega
    have hv := parseValue_stringify h.1 hle.1 (stops_cons (u := 0x2C)
      (join (itemTexts (w :: items)) ++ 0x5D :: rest) (by decide))
    have hitems : parseItems ofLiteral fuel (join (itemTexts (w :: items)) ++ 0x5D :: rest) =
        some (w :: items, rest) := parseItems_join (List.cons_ne_nil w items) h.2 hle.2
    rw [itemTexts] at hv hitems
    rw [itemTexts, itemTexts, join_cons_cons, List.append_assoc, List.cons_append, parseItems]
    simp only [hv, Option.bind_eq_bind, Option.bind_some, skipBlanks_cons (show isBlank 0x2C = false by decide),
      if_true, hitems, Option.map_some, prepend]

theorem parseMembers_join : ∀ {properties : List (JsString × Json)} {fuel : Nat} {rest : JsString},
    properties ≠ [] → CanonicalMembers ofLiteral properties → costMembers properties ≤ fuel →
      parseMembers ofLiteral fuel (join (memberTexts properties) ++ 0x7D :: rest) = some (properties, rest)
  | [], _, _, hne, _, _ => absurd rfl hne
  | (name, v) :: properties, 0, _, _, _, hfuel => by
    simp only [costMembers] at hfuel
    omega
  | [(name, v)], fuel + 1, rest, _, h, hfuel => by
    have hle : cost v ≤ fuel := by
      simp only [costMembers] at hfuel
      omega
    have hv := parseValue_stringify h.1 hle (stops_cons (u := 0x7D) rest (by decide))
    have hname := parseString_quoteUnits name (0x3A :: (stringify v ++ 0x7D :: rest))
    rw [memberTexts, memberTexts, join, List.intercalate_singleton, member_text, parseMembers,
      skipBlanks_cons (by decide)]
    simp only [if_true, hname, Option.bind_eq_bind, Option.bind_some,
      skipBlanks_cons (show isBlank 0x3A = false by decide), hv,
      skipBlanks_cons (show isBlank 0x7D = false by decide), show ¬(0x7D : UInt16) = 0x2C by decide,
      if_false]
  | (name, v) :: (name', w) :: properties, fuel + 1, rest, _, h, hfuel => by
    have hle : cost v ≤ fuel ∧ costMembers ((name', w) :: properties) ≤ fuel := by
      rw [costMembers] at hfuel
      omega
    have hv := parseValue_stringify h.1 hle.1 (stops_cons (u := 0x2C)
      (join (memberTexts ((name', w) :: properties)) ++ 0x7D :: rest) (by decide))
    have hname := parseString_quoteUnits name (0x3A :: (stringify v ++
      0x2C :: (join (memberTexts ((name', w) :: properties)) ++ 0x7D :: rest)))
    have hmembers : parseMembers ofLiteral fuel
        (join (memberTexts ((name', w) :: properties)) ++ 0x7D :: rest) = some ((name', w) :: properties, rest) :=
      parseMembers_join (List.cons_ne_nil (name', w) properties) h.2 hle.2
    rw [memberTexts] at hv hname hmembers
    rw [memberTexts, memberTexts, join_cons_cons, List.append_assoc, List.cons_append, member_text,
      parseMembers, skipBlanks_cons (by decide)]
    simp only [if_true, hname, Option.bind_eq_bind, Option.bind_some,
      skipBlanks_cons (show isBlank 0x3A = false by decide), hv,
      skipBlanks_cons (show isBlank 0x2C = false by decide), hmembers, Option.map_some, prepend]

end

end

end DecQueue.JsonParse
