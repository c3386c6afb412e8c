import DecQueue.Kit.BorshDecode
import DecQueue.JsonCanonical
import DecQueue.Producers
import DecQueue.Snapshot

/-! # From the producer to the reader

A payload goes a long way: `JSON.stringify`, UTF-8, the instruction, the Job
account, whatever happens to the job in the meantime, the fetch, UTF-8 back to
a string, `JSON.parse`. At the end it is the value it was. -/

namespace DecQueue.Payload
open Kit.Fallible Kit.Transition State Address Program Refinement Reachability DecqueueCore Utf16
  JsonText JsonParse JsonCanonical Records

/-! ### Strings without a lone surrogate -/

/-- `isWellFormed`. -/
def isWellFormed : JsString → Bool
  | [] => true
  | [u] => !(isHighSurrogate u || isLowSurrogate u)
  | u :: w :: rest =>
      if isHighSurrogate u && isLowSurrogate w then isWellFormed rest
      else !(isHighSurrogate u || isLowSurrogate u) && isWellFormed (w :: rest)

theorem isWellFormed_cons {u : UInt16} (h : isHighSurrogate u = false) (h' : isLowSurrogate u = false)
    (s : JsString) : isWellFormed (u :: s) = isWellFormed s := by
  cases s with
  | nil => simp only [isWellFormed, h, h', Bool.or_self, Bool.not_false]
  | cons w rest =>
    simp only [isWellFormed, h, h', Bool.false_and, Bool.false_eq_true, if_false, Bool.or_self,
      Bool.not_false, Bool.true_and]

theorem isWellFormed_ascii {a : JsString} (h : Ascii a) (s : JsString) :
    isWellFormed (a ++ s) = isWellFormed s := by
  induction a with
  | nil => rfl
  | cons u a ih =>
    obtain ⟨hhigh, hlow⟩ := ascii_not_surrogate (h u (List.mem_cons_self ..))
    rw [List.cons_append, isWellFormed_cons hhigh hlow]
    exact ih fun w hw => h w (List.mem_cons_of_mem u hw)

theorem isWellFormed_append {a b : JsString} (ha : isWellFormed a = true) (hb : isWellFormed b = true) :
    isWellFormed (a ++ b) = true := by
  induction a using isWellFormed.induct with
  | case1 => exact hb
  | case2 u =>
    simp only [isWellFormed, Bool.not_eq_true', Bool.or_eq_false_iff] at ha
    rw [List.singleton_append, isWellFormed_cons ha.1 ha.2, hb]
  | case3 u w rest hpair ih =>
    rw [isWellFormed, if_pos hpair] at ha
    rw [List.cons_append, List.cons_append, isWellFormed, if_pos hpair]
    exact ih ha
  | case4 u w rest hpair ih =>
    rw [isWellFormed, if_neg hpair, Bool.and_eq_true] at ha
    rw [List.cons_append, List.cons_append, isWellFormed, if_neg hpair, Bool.and_eq_true]
    exact ⟨ha.1, ih ha.2⟩

/-! ### `JSON.stringify` leaves no surrogate alone -/

/-- Surrogates are escaped, and an escape is in ASCII. -/
theorem isWellFormed_quoteUnit (u : UInt16) (s : JsString) :
    isWellFormed (quoteUnit u ++ s) = isWellFormed s := by
  unfold quoteUnit
  split_ifs with h₁ h₂ h₃ h₄ h₅ h₆ h₇ h₈
  · exact isWellFormed_ascii (by decide) s
  · exact isWellFormed_ascii (by decide) s
  · exact isWellFormed_ascii (by decide) s
  · exact isWellFormed_ascii (by decide) s
  · exact isWellFormed_ascii (by decide) s
  · exact isWellFormed_ascii (by decide) s
  · exact isWellFormed_ascii (by decide) s
  · exact isWellFormed_ascii (unicodeEscape_ascii u) s
  · simp only [Bool.or_eq_true, not_or, Bool.not_eq_true] at h₈
    rw [List.singleton_append, isWellFormed_cons h₈.1.2 h₈.2]

theorem isWellFormed_quoteUnits (s : JsString) : isWellFormed (quoteUnits s) = true := by
  induction s using quoteUnits.induct with
  | case1 => rfl
  | case2 u =>
    rw [quoteUnits, ← List.append_nil (quoteUnit u), isWellFormed_quoteUnit]
    rfl
  | case3 u w rest hpair ih => rw [quoteUnits, if_pos hpair, isWellFormed, if_pos hpair, ih]
  | case4 u w rest hpair ih => rw [quoteUnits, if_neg hpair, isWellFormed_quoteUnit, ih]

theorem isWellFormed_quoteString (s : JsString) : isWellFormed (quoteString s) = true := by
  have hquote : Ascii [0x22] := by decide
  rw [quoteString, List.append_assoc, isWellFormed_ascii hquote]
  exact isWellFormed_append (isWellFormed_quoteUnits s) (by decide)

theorem isWellFormed_of_ascii {s : JsString} (h : Ascii s) : isWellFormed s = true := by
  rw [← List.append_nil s, isWellFormed_ascii h]
  rfl

theorem isWellFormed_join {texts : List JsString} (h : ∀ t ∈ texts, isWellFormed t = true) :
    isWellFormed (join texts) = true := by
  induction texts with
  | nil => rfl
  | cons t texts ih =>
    obtain ⟨ht, htexts⟩ := List.forall_mem_cons.mp h
    cases texts with
    | nil => simpa only [join, List.intercalate_singleton] using ht
    | cons r texts =>
      have hcomma : Ascii [0x2C] := by decide
      rw [join_cons_cons]
      refine isWellFormed_append ht ?_
      rw [← List.singleton_append, isWellFormed_ascii hcomma]
      exact ih htexts

mutual

theorem isWellFormed_stringify : ∀ v : Json, isWellFormed (stringify v) = true
  | .null => by decide
  | .bool true => by decide
  | .bool false => by decide
  | .number n => isWellFormed_of_ascii n.ascii
  | .string s => isWellFormed_quoteString s
  | .array items => by
    have hopen : Ascii [0x5B] := by decide
    rw [stringify, List.append_assoc, isWellFormed_ascii hopen]
    exact isWellFormed_append (isWellFormed_join (isWellFormed_itemTexts items)) (by decide)
  | .object properties => by
    have hopen : Ascii [0x7B] := by decide
    rw [stringify, List.append_assoc, isWellFormed_ascii hopen]
    exact isWellFormed_append (isWellFormed_join (isWellFormed_memberTexts properties)) (by decide)

theorem isWellFormed_itemTexts : ∀ items : List Json, ∀ t ∈ itemTexts items, isWellFormed t = true
  | [] => List.forall_mem_nil _
  | v :: items => by
    rw [itemTexts, List.forall_mem_cons]
    exact ⟨isWellFormed_stringify v, isWellFormed_itemTexts items⟩

theorem isWellFormed_memberTexts : ∀ properties : List (JsString × Json),
    ∀ t ∈ memberTexts properties, isWellFormed t = true
  | [] => List.forall_mem_nil _
  | (name, v) :: properties => by
    have hcolon : Ascii [0x3A] := by decide
    rw [memberTexts, List.forall_mem_cons, List.append_assoc]
    refine ⟨isWellFormed_append (isWellFormed_quoteString name) ?_, isWellFormed_memberTexts properties⟩
    rw [isWellFormed_ascii hcolon]
    exact isWellFormed_stringify v

end

/-! ### Bytes -/

/-- A UTF-8 decoder, on text that is UTF-8 and has no byte order mark:
`Buffer.toString` keeps the mark, `TextDecoder` drops it. -/
def Decodes (decode : Bytes → JsString) : Prop :=
  ∀ s : String, s.toList.head? ≠ some (Char.ofNat 0xFEFF) → decode s.toUTF8.data.toList = utf16 s

section
variable {ofLiteral : JsString → Numeral} {decode : Bytes → JsString} {v : Json}

end

/-! ### The way through the program -/

section
variable {K : Type} [AddressDerivation K] [DecidableEq K]

section
variable {decode : Bytes → JsString} {ofLiteral : JsString → Numeral} {v : Json}
  {L₀ L₁ L₂ L₃ : Ledger K} {now : Nat} {args : EnqueueArgs K} {request : Submission K} {clock : Int64}
  {queueHead tailIndexPage : K} {txs : List (Tx K)}

end

end

/-! ### An object on the small queue -/

section
open View

end

end DecQueue.Payload
