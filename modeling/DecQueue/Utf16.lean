import DecQueue.DecqueueCore

/-! # Code units and bytes

The clients measure and cut a string in UTF-16 code units, the program
measures it in UTF-8 bytes. `extraBytes` is what the second measure adds to
the first: one for every unit from U+0080 on, and another one from U+0800 on,
where the two halves of a surrogate pair add one each. -/

namespace DecQueue.Utf16
open DecqueueCore

/-! ### Length in bytes -/

def unitExtra (u : UInt16) : Nat := if u < 0x80 then 0 else if u < 0x800 then 1 else 2

def extraBytes : JsString → Nat
  | [] => 0
  | [u] => unitExtra u
  | u :: w :: rest =>
      if isHighSurrogate u && isLowSurrogate w then 2 + extraBytes rest
      else unitExtra u + extraBytes (w :: rest)

theorem toNat_ofNat {n : Nat} (h : n.isValidChar) : (Char.ofNat n).toNat = n := by
  rw [Char.ofNat, dif_pos h]
  rfl

theorem utf8Size_eq (c : Char) : c.utf8Size =
    if c.toNat ≤ 0x7F then 1 else if c.toNat ≤ 0x7FF then 2 else if c.toNat ≤ 0xFFFF then 3 else 4 := rfl

theorem isHighSurrogate_iff (u : UInt16) :
    isHighSurrogate u = true ↔ 0xD800 ≤ u.toNat ∧ u.toNat ≤ 0xDBFF := by
  simp only [isHighSurrogate, Bool.and_eq_true, decide_eq_true_eq]
  exact Iff.rfl

theorem isLowSurrogate_iff (u : UInt16) :
    isLowSurrogate u = true ↔ 0xDC00 ≤ u.toNat ∧ u.toNat ≤ 0xDFFF := by
  simp only [isLowSurrogate, Bool.and_eq_true, decide_eq_true_eq]
  exact Iff.rfl

theorem isValidChar_unit {u : UInt16} (h : isHighSurrogate u = false) (h' : isLowSurrogate u = false) :
    u.toNat.isValidChar := by
  rw [← Bool.not_eq_true, isHighSurrogate_iff] at h
  rw [← Bool.not_eq_true, isLowSurrogate_iff] at h'
  have hlt := u.toNat_lt
  unfold Nat.isValidChar
  omega

theorem toNat_surrogatePair {u w : UInt16} (h : isHighSurrogate u = true) (h' : isLowSurrogate w = true) :
    (surrogatePair u w).toNat = 0x10000 + (u.toNat - 0xD800) * 0x400 + (w.toNat - 0xDC00) := by
  rw [isHighSurrogate_iff] at h
  rw [isLowSurrogate_iff] at h'
  refine toNat_ofNat ?_
  unfold Nat.isValidChar
  omega

theorem utf8Size_codePoint (u : UInt16) : (codePoint u).utf8Size = 1 + unitExtra u := by
  have hlt : u < 0x80 ↔ u.toNat < 0x80 := Iff.rfl
  have hlt' : u < 0x800 ↔ u.toNat < 0x800 := Iff.rfl
  simp only [unitExtra, hlt, hlt', utf8Size_eq]
  by_cases hs : isHighSurrogate u || isLowSurrogate u
  · -- the replacement character, in three bytes
    have hu : 0xD800 ≤ u.toNat := by
      rw [Bool.or_eq_true, isHighSurrogate_iff, isLowSurrogate_iff] at hs
      omega
    have hc : (codePoint u).toNat = 0xFFFD := by
      rw [codePoint, if_pos hs]
      rfl
    have h1 : ¬u.toNat < 0x80 := by omega
    have h2 : ¬u.toNat < 0x800 := by omega
    rw [hc, if_neg h1, if_neg h2]
    rfl
  · have hn : isHighSurrogate u = false ∧ isLowSurrogate u = false := by simpa using hs
    have hc : (codePoint u).toNat = u.toNat := by
      rw [codePoint, if_neg hs]
      exact toNat_ofNat (isValidChar_unit hn.1 hn.2)
    have hmax := u.toNat_lt
    rw [hc]
    by_cases h1 : u.toNat < 0x80
    · rw [if_pos (by omega), if_pos h1]
    · by_cases h2 : u.toNat < 0x800
      · rw [if_neg (by omega), if_pos (by omega), if_neg h1, if_pos h2]
      · rw [if_neg (by omega), if_neg (by omega), if_pos (by omega), if_neg h1, if_neg h2]

theorem utf8Size_surrogatePair {u w : UInt16} (h : isHighSurrogate u = true) (h' : isLowSurrogate w = true) :
    (surrogatePair u w).utf8Size = 4 := by
  have hn := toNat_surrogatePair h h'
  rw [utf8Size_eq, if_neg (by omega), if_neg (by omega), if_neg (by omega)]

theorem utf8ByteSize_ofList_cons (c : Char) (l : List Char) :
    (String.ofList (c :: l)).utf8ByteSize = c.utf8Size + (String.ofList l).utf8ByteSize := by
  have hsplit : String.ofList (c :: l) = String.singleton c ++ String.ofList l := by
    rw [String.singleton_eq_ofList, ← String.ofList_append]
    rfl
  rw [hsplit, String.utf8ByteSize_append, String.utf8ByteSize_singleton]

theorem utf8ByteSize_toUnicode (s : JsString) :
    (toUnicode s).utf8ByteSize = s.length + extraBytes s := by
  unfold toUnicode
  induction s using codePoints.induct with
  | case1 => rfl
  | case2 u =>
    simp only [codePoints, extraBytes, utf8ByteSize_ofList_cons, utf8Size_codePoint,
      List.length_singleton, String.ofList_nil, String.utf8ByteSize_empty, Nat.add_zero]
  | case3 u w rest hpair ih =>
    have hsurrogates : isHighSurrogate u = true ∧ isLowSurrogate w = true := by simpa using hpair
    simp only [codePoints, extraBytes, if_pos hpair, utf8ByteSize_ofList_cons, ih,
      utf8Size_surrogatePair hsurrogates.1 hsurrogates.2, List.length_cons]
    omega
  | case4 u w rest hpair ih =>
    simp only [codePoints, extraBytes, if_neg hpair, utf8ByteSize_ofList_cons, ih,
      utf8Size_codePoint, List.length_cons]
    omega

/-! ### Parts in ASCII -/

def Ascii (s : JsString) : Prop := ∀ u ∈ s, u < 0x80

instance (s : JsString) : Decidable (Ascii s) := List.decidableBAll (fun u => u < 0x80) s

theorem Ascii.append {s t : JsString} (h : Ascii s) (h' : Ascii t) : Ascii (s ++ t) := by
  intro u hu
  exact (List.mem_append.mp hu).elim (h u) (h' u)

theorem Ascii.take {s : JsString} (h : Ascii s) (n : Nat) : Ascii (s.take n) :=
  fun u hu => h u (List.mem_of_mem_take hu)

theorem ascii_not_surrogate {u : UInt16} (h : u < 0x80) :
    isHighSurrogate u = false ∧ isLowSurrogate u = false := by
  have hlt : u.toNat < 0x80 := h
  refine ⟨?_, ?_⟩
  · rw [← Bool.not_eq_true, isHighSurrogate_iff]
    omega
  · rw [← Bool.not_eq_true, isLowSurrogate_iff]
    omega

theorem extraBytes_cons_ascii {u : UInt16} (h : u < 0x80) (s : JsString) :
    extraBytes (u :: s) = extraBytes s := by
  cases s with
  | nil => simp only [extraBytes, unitExtra, if_pos h]
  | cons w rest =>
    simp only [extraBytes, (ascii_not_surrogate h).1, Bool.false_and, Bool.false_eq_true, if_false,
      unitExtra, if_pos h, Nat.zero_add]

theorem extraBytes_ascii_append {a : JsString} (h : Ascii a) (s : JsString) :
    extraBytes (a ++ s) = extraBytes s := by
  induction a with
  | nil => rfl
  | cons u a ih =>
    rw [List.cons_append, extraBytes_cons_ascii (h u (List.mem_cons_self ..))]
    exact ih fun w hw => h w (List.mem_cons_of_mem u hw)

theorem extraBytes_ascii {a : JsString} (h : Ascii a) : extraBytes a = 0 := by
  rw [← List.append_nil a, extraBytes_ascii_append h]
  rfl

theorem extraBytes_append_ascii (s : JsString) {a : JsString} (h : Ascii a) :
    extraBytes (s ++ a) = extraBytes s := by
  have ha : extraBytes a = 0 := extraBytes_ascii h
  induction s using extraBytes.induct with
  | case1 => exact ha
  | case2 u =>
    cases a with
    | nil => rfl
    | cons w rest =>
      -- what follows the last unit is no low surrogate
      have hw := (ascii_not_surrogate (h w (List.mem_cons_self ..))).2
      simp only [List.singleton_append, extraBytes, hw, Bool.and_false, Bool.false_eq_true, if_false,
        ha, Nat.add_zero]
  | case3 u w rest hpair ih => simp only [List.cons_append, extraBytes, if_pos hpair, ih]
  | case4 u w rest hpair ih =>
    simp only [List.cons_append] at ih
    simp only [List.cons_append, extraBytes, if_neg hpair, ih]

/-! ### From the program's strings -/

def charUnits (c : Char) : JsString :=
  if c.toNat < 0x10000 then [UInt16.ofNat c.toNat]
  else [UInt16.ofNat (0xD800 + (c.toNat - 0x10000) / 0x400),
    UInt16.ofNat (0xDC00 + (c.toNat - 0x10000) % 0x400)]

def utf16 (s : String) : JsString := s.toList.flatMap charUnits

theorem codePoints_cons {u : UInt16} (h : isHighSurrogate u = false) (s : JsString) :
    codePoints (u :: s) = codePoint u :: codePoints s := by
  cases s with
  | nil => rfl
  | cons w rest => simp only [codePoints, h, Bool.false_and, Bool.false_eq_true, if_false]

theorem codePoints_charUnits (c : Char) (s : JsString) :
    codePoints (charUnits c ++ s) = c :: codePoints s := by
  have hrange : c.toNat < 0xD800 ∨ (0xDFFF < c.toNat ∧ c.toNat < 0x110000) := c.valid
  have hsize : UInt16.size = 0x10000 := rfl
  unfold charUnits
  split
  next hlow =>
    have hu : (UInt16.ofNat c.toNat).toNat = c.toNat := UInt16.toNat_ofNat_of_lt' hlow
    have hs : isHighSurrogate (UInt16.ofNat c.toNat) = false ∧
        isLowSurrogate (UInt16.ofNat c.toNat) = false := by
      constructor
      · rw [← Bool.not_eq_true, isHighSurrogate_iff, hu]
        omega
      · rw [← Bool.not_eq_true, isLowSurrogate_iff, hu]
        omega
    rw [List.singleton_append, codePoints_cons hs.1, codePoint, hs.1, hs.2]
    simp only [Bool.or_self, Bool.false_eq_true, if_false, hu, Char.ofNat_toNat]
  next hhigh =>
    have hu : (UInt16.ofNat (0xD800 + (c.toNat - 0x10000) / 0x400)).toNat =
        0xD800 + (c.toNat - 0x10000) / 0x400 := UInt16.toNat_ofNat_of_lt' (by omega)
    have hw : (UInt16.ofNat (0xDC00 + (c.toNat - 0x10000) % 0x400)).toNat =
        0xDC00 + (c.toNat - 0x10000) % 0x400 := UInt16.toNat_ofNat_of_lt' (by omega)
    have hs : isHighSurrogate (UInt16.ofNat (0xD800 + (c.toNat - 0x10000) / 0x400)) = true := by
      rw [isHighSurrogate_iff, hu]
      omega
    have hs' : isLowSurrogate (UInt16.ofNat (0xDC00 + (c.toNat - 0x10000) % 0x400)) = true := by
      rw [isLowSurrogate_iff, hw]
      omega
    have hback : 0x10000 + (0xD800 + (c.toNat - 0x10000) / 0x400 - 0xD800) * 0x400 +
        (0xDC00 + (c.toNat - 0x10000) % 0x400 - 0xDC00) = c.toNat := by omega
    simp only [List.cons_append, List.nil_append, codePoints, hs, hs', Bool.and_self, if_true,
      surrogatePair, hu, hw, hback, Char.ofNat_toNat]

theorem toUnicode_utf16 (s : String) : toUnicode (utf16 s) = s := by
  have hlist : ∀ l : List Char, codePoints (l.flatMap charUnits) = l := by
    intro l
    induction l with
    | nil => rfl
    | cons c l ih => rw [List.flatMap_cons, codePoints_charUnits, ih]
  rw [toUnicode, utf16, hlist, String.ofList_toList]

end DecQueue.Utf16
