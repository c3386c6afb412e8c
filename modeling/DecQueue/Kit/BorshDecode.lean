import DecQueue.Kit.Borsh

/-! # Reading Borsh

A decoder consumes the front of a list of bytes. `Decodes dec P enc` says all
there is to say about one: it accepts the encodings of the values in `P`,
leaves what follows them, and accepts nothing else. Both round trips are in
this equivalence, and it composes: the decoder of a record is the sequence of
the decoders of its fields. -/

namespace Kit.BorshDecode
open Kit.Borsh

variable {α β : Type}

abbrev Decoder (α : Type) := StateT (List UInt8) Option α

def Decodes (dec : Decoder α) (P : α → Prop) (enc : α → List UInt8) : Prop :=
  ∀ bs a rest, dec bs = some (a, rest) ↔ P a ∧ bs = enc a ++ rest

/-! ### Sequences -/

theorem bind_iff (x : Decoder α) (f : α → Decoder β) (bs : List UInt8) (r : β × List UInt8) :
    (x >>= f) bs = some r ↔ ∃ a mid, x bs = some (a, mid) ∧ f a mid = some r := by
  show (x bs).bind (fun p => f p.1 p.2) = some r ↔ _
  rw [Option.bind_eq_some_iff, Prod.exists]

theorem pure_iff (a : α) (bs : List UInt8) (b : α) (rest : List UInt8) :
    (pure a : Decoder α) bs = some (b, rest) ↔ a = b ∧ bs = rest := by
  show some (a, bs) = some (b, rest) ↔ _
  rw [Option.some.injEq, Prod.mk.injEq]

/-- One step of a decoder whose field is read by `dec`. -/
theorem Decodes.bind_iff {dec : Decoder α} {P : α → Prop} {enc : α → List UInt8}
    (h : Decodes dec P enc) (f : α → Decoder β) (bs : List UInt8) (r : β × List UInt8) :
    (dec >>= f) bs = some r ↔ ∃ a mid, (P a ∧ bs = enc a ++ mid) ∧ f a mid = some r := by
  simp only [BorshDecode.bind_iff, h bs]

/-- A decoder that checks and converts what another one has read. -/
def checked (dec : Decoder α) (f : α → Option β) : Decoder β := fun bs =>
  (dec bs).bind fun p => (f p.1).map fun b => (b, p.2)

theorem checked_iff (dec : Decoder α) (f : α → Option β) (bs : List UInt8) (b : β)
    (rest : List UInt8) :
    checked dec f bs = some (b, rest) ↔ ∃ a, dec bs = some (a, rest) ∧ f a = some b := by
  simp only [checked, Option.bind_eq_some_iff, Option.map_eq_some_iff, Prod.exists, Prod.mk.injEq]
  constructor
  · intro ⟨a, mid, ha, c, hc, hb, hrest⟩
    subst hb hrest
    exact ⟨a, ha, hc⟩
  · intro ⟨a, ha, hb⟩
    exact ⟨a, rest, ha, b, hb, rfl, rfl⟩

theorem Decodes.checked {dec : Decoder α} {P : α → Prop} {enc : α → List UInt8}
    (h : Decodes dec P enc) {f : α → Option β} {Q : β → Prop} {enc' : β → List UInt8}
    (hf : ∀ a b, P a ∧ f a = some b ↔ P a ∧ Q b ∧ enc' b = enc a)
    (hall : ∀ b, Q b → ∃ a, P a ∧ enc' b = enc a) : Decodes (checked dec f) Q enc' := by
  intro bs b rest
  rw [checked_iff]
  constructor
  · intro ⟨a, ha, hb⟩
    obtain ⟨hP, rfl⟩ := (h bs a rest).mp ha
    obtain ⟨_, hQ, he⟩ := (hf a b).mp ⟨hP, hb⟩
    exact ⟨hQ, by rw [he]⟩
  · intro ⟨hQ, hbs⟩
    obtain ⟨a, hP, he⟩ := hall b hQ
    obtain ⟨_, hb⟩ := (hf a b).mpr ⟨hP, hQ, he⟩
    exact ⟨a, (h bs a rest).mpr ⟨hP, hbs.trans (by rw [he])⟩, hb⟩

/-- Two values with one encoding are the same value. -/
theorem Decodes.injective {dec : Decoder α} {P : α → Prop} {enc : α → List UInt8}
    (h : Decodes dec P enc) {a b : α} (ha : P a) (hb : P b) (he : enc a = enc b) : a = b := by
  have h₁ := (h (enc a) a []).mpr ⟨ha, (List.append_nil _).symm⟩
  have h₂ := (h (enc a) b []).mpr ⟨hb, by rw [he, List.append_nil]⟩
  have hpair := Option.some.inj (h₁.symm.trans h₂)
  exact congrArg Prod.fst hpair

/-! ### Bytes and integers -/

def takeBytes (n : Nat) : Decoder (List UInt8) := fun bs =>
  if n ≤ bs.length then some (bs.take n, bs.drop n) else none

theorem decodes_takeBytes (n : Nat) : Decodes (takeBytes n) (fun w => w.length = n) id := by
  intro bs w rest
  unfold takeBytes
  constructor
  · intro h
    split at h
    next hle =>
      cases h
      exact ⟨List.length_take_of_le hle, (List.take_append_drop n bs).symm⟩
    next => cases h
  · intro ⟨hw, hbs⟩
    subst hw hbs
    have hle : w.length ≤ (id w ++ rest).length := by
      simp only [id_eq, List.length_append, Nat.le_add_right]
    rw [if_pos hle]
    simp only [id_eq, List.take_left, List.drop_left]

theorem leBytes_leValue (w : List UInt8) : leBytes w.length (leValue w) = w := by
  induction w with
  | nil => rfl
  | cons b w ih =>
    have hb := b.toNat_lt
    have hlow : UInt8.ofNat (b.toNat + 256 * leValue w) = b := by
      apply UInt8.toNat_inj.mp
      rw [UInt8.toNat_ofNat']
      omega
    have hhigh : (b.toNat + 256 * leValue w) / 256 = leValue w := by omega
    rw [List.length_cons, leValue, leBytes, hlow, hhigh, ih]

theorem leValue_lt (w : List UInt8) : leValue w < 256 ^ w.length := by
  induction w with
  | nil => exact Nat.one_pos
  | cons b w ih =>
    have hb := b.toNat_lt
    rw [List.length_cons, leValue, Nat.pow_succ']
    omega

def decodeLE (width : Nat) : Decoder Nat := checked (takeBytes width) fun w => some (leValue w)

theorem decodes_LE (width : Nat) : Decodes (decodeLE width) (fun n => n < 256 ^ width) (leBytes width) := by
  apply (decodes_takeBytes width).checked
  · intro w n
    constructor
    · intro ⟨hw, hn⟩
      cases hn
      subst hw
      exact ⟨rfl, leValue_lt w, leBytes_leValue w⟩
    · intro ⟨hw, hn, he⟩
      refine ⟨hw, congrArg some ?_⟩
      have hv := congrArg leValue he
      rw [leValue_leBytes, Nat.mod_eq_of_lt hn] at hv
      exact hv.symm
  · intro n hn
    exact ⟨leBytes width n, length_leBytes width n, rfl⟩

def decodeByte : Decoder UInt8
  | [] => none
  | b :: bs => some (b, bs)

theorem decodes_byte : Decodes decodeByte (fun _ => True) (fun b => [b]) := by
  intro bs b rest
  cases bs with
  | nil => simp [decodeByte]
  | cons c bs => simp [decodeByte]

def boolOfNat : Nat → Option Bool
  | 0 => some false
  | 1 => some true
  | _ => none

def decodeBool : Decoder Bool := checked (decodeLE 1) boolOfNat

theorem decodes_bool : Decodes decodeBool (fun _ => True) encodeBool := by
  apply (decodes_LE 1).checked
  · intro n b
    constructor
    · intro ⟨hn, hb⟩
      refine ⟨hn, trivial, ?_⟩
      unfold boolOfNat at hb
      split at hb
      · cases hb
        rfl
      · cases hb
        rfl
      · cases hb
    · intro ⟨hn, _, he⟩
      refine ⟨hn, ?_⟩
      have hlt : b.toNat < 256 ^ 1 := by cases b <;> decide
      have hn' : b.toNat = n := leBytes_injective hlt hn he
      subst hn'
      cases b <;> rfl
  · intro b _
    exact ⟨b.toNat, by cases b <;> decide, rfl⟩

def decodeInt64 : Decoder Int64 := checked (decodeLE 8) fun n => some (UInt64.ofNat n).toInt64

theorem decodes_int64 : Decodes decodeInt64 (fun _ => True) encodeInt64 := by
  apply (decodes_LE 8).checked
  · intro n i
    constructor
    · intro ⟨hn, hi⟩
      cases hi
      refine ⟨hn, trivial, ?_⟩
      have hn' : (UInt64.ofNat n).toNat = n := UInt64.toNat_ofNat_of_lt' hn
      unfold encodeInt64
      rw [UInt64.toUInt64_toInt64, hn']
    · intro ⟨hn, _, he⟩
      refine ⟨hn, congrArg some ?_⟩
      have hlt : i.toUInt64.toNat < 256 ^ 8 := i.toUInt64.toNat_lt
      have hn' : i.toUInt64.toNat = n := leBytes_injective hlt hn he
      subst hn'
      rw [UInt64.ofNat_toNat, Int64.toInt64_toUInt64]
  · intro i _
    exact ⟨i.toUInt64.toNat, i.toUInt64.toNat_lt, rfl⟩

/-! ### Arrays -/

def arrayOfBytes (n : Nat) (bytes : List UInt8) : Option (Vector UInt8 n) :=
  if h : bytes.toArray.size = n then some ⟨bytes.toArray, h⟩ else none

theorem arrayOfBytes_iff {n : Nat} (bytes : List UInt8) (v : Vector UInt8 n) :
    arrayOfBytes n bytes = some v ↔ v.toList = bytes := by
  unfold arrayOfBytes
  constructor
  · intro h
    split at h
    · cases h
      rfl
    · cases h
  · intro h
    subst h
    have hsize : v.toList.toArray.size = n := by
      rw [List.size_toArray, Vector.length_toList]
    rw [dif_pos hsize]
    rfl

/-- A `[u8; n]` has no length in front. -/
def decodeArray (n : Nat) : Decoder (Vector UInt8 n) := checked (takeBytes n) (arrayOfBytes n)

theorem decodes_array (n : Nat) : Decodes (decodeArray n) (fun _ => True) Vector.toList := by
  apply (decodes_takeBytes n).checked
  · intro bytes v
    rw [arrayOfBytes_iff, id_eq, true_and]
  · intro v _
    exact ⟨v.toList, Vector.length_toList, rfl⟩

/-! ### Sequences, strings and options -/

def decodeItems (item : Decoder α) : Nat → Decoder (List α)
  | 0 => pure []
  | n + 1 => do
      let a ← item
      let l ← decodeItems item n
      pure (a :: l)

theorem decodeItems_iff {item : Decoder α} {P : α → Prop} {enc : α → List UInt8}
    (h : Decodes item P enc) (n : Nat) (bs : List UInt8) (l : List α) (rest : List UInt8) :
    decodeItems item n bs = some (l, rest) ↔
      l.length = n ∧ (∀ a ∈ l, P a) ∧ bs = l.flatMap enc ++ rest := by
  induction n generalizing bs l rest with
  | zero =>
    rw [decodeItems, pure_iff]
    constructor
    · intro ⟨hl, hbs⟩
      subst hl hbs
      exact ⟨rfl, List.forall_mem_nil _, rfl⟩
    · intro ⟨hl, _, hbs⟩
      cases List.length_eq_zero_iff.mp hl
      exact ⟨rfl, hbs⟩
  | succ n ih =>
    simp only [decodeItems, h.bind_iff, bind_iff, ih, pure_iff]
    constructor
    · intro ⟨a, mid, ⟨ha, hbs⟩, l', mid', ⟨hl, hall, hmid⟩, he, hrest⟩
      subst hbs hmid he hrest
      refine ⟨by rw [List.length_cons, hl], List.forall_mem_cons.mpr ⟨ha, hall⟩, ?_⟩
      rw [List.flatMap_cons, List.append_assoc]
    · intro ⟨hl, hall, hbs⟩
      cases l with
      | nil => cases hl
      | cons a l =>
        obtain ⟨ha, hrest⟩ := List.forall_mem_cons.mp hall
        rw [List.flatMap_cons, List.append_assoc] at hbs
        exact ⟨a, _, ⟨ha, hbs⟩, l, rest, ⟨Nat.succ.inj hl, hrest, rfl⟩, rfl, rfl⟩

def decodeVec (item : Decoder α) : Decoder (List α) := do
  let n ← decodeLE 4
  decodeItems item n

theorem Decodes.vec {item : Decoder α} {P : α → Prop} {enc : α → List UInt8} (h : Decodes item P enc) :
    Decodes (decodeVec item) (fun l => l.length < 256 ^ 4 ∧ ∀ a ∈ l, P a) (encodeVec enc) := by
  intro bs l rest
  simp only [decodeVec, (decodes_LE 4).bind_iff, decodeItems_iff h, encodeVec, List.append_assoc]
  constructor
  · intro hparts
    obtain ⟨n, mid, ⟨hn, hbs⟩, hl, hall, hmid⟩ := hparts
    subst hl hmid
    exact ⟨⟨hn, hall⟩, hbs⟩
  · intro hparts
    obtain ⟨⟨hn, hall⟩, hbs⟩ := hparts
    exact ⟨l.length, _, ⟨hn, hbs⟩, rfl, hall, rfl⟩

def decodeBytes : Decoder (List UInt8) := decodeVec decodeByte

theorem decodes_bytes : Decodes decodeBytes (fun l => l.length < 256 ^ 4) encodeBytes := by
  intro bs l rest
  rw [decodeBytes, decodes_byte.vec bs l rest, encodeBytes]
  simp only [implies_true, and_true]

def stringOfBytes (bytes : List UInt8) : Option String := String.fromUTF8? ⟨bytes.toArray⟩

theorem stringOfBytes_iff (bytes : List UInt8) (s : String) :
    stringOfBytes bytes = some s ↔ s.toUTF8.data.toList = bytes := by
  unfold stringOfBytes String.fromUTF8?
  constructor
  · intro h
    split at h
    next hvalid =>
      cases h
      rfl
    next => cases h
  · intro h
    subst h
    have hvalid : ByteArray.IsValidUTF8 ⟨s.toUTF8.data.toList.toArray⟩ := s.isValidUTF8
    rw [dif_pos hvalid]
    rfl

def decodeString : Decoder String := checked decodeBytes stringOfBytes

theorem decodes_string : Decodes decodeString (fun s => s.utf8ByteSize < 256 ^ 4) encodeString := by
  have hsize : ∀ s : String, s.toUTF8.data.toList.length = s.utf8ByteSize := by
    intro s
    rw [Array.length_toList]
    rfl
  apply decodes_bytes.checked
  · intro bytes s
    rw [stringOfBytes_iff]
    constructor
    · intro ⟨hlt, he⟩
      subst he
      exact ⟨hlt, hsize s ▸ hlt, rfl⟩
    · intro ⟨hlt, hs, he⟩
      exact ⟨hlt, decodes_bytes.injective ((hsize s).trans_lt hs) hlt he⟩
  · intro s hs
    exact ⟨s.toUTF8.data.toList, (hsize s).trans_lt hs, rfl⟩

def decodeOption (item : Decoder α) : Decoder (Option α) := do
  let tag ← decodeLE 1
  match tag with
  | 0 => pure none
  | 1 => checked item fun a => some (some a)
  | _ => failure

theorem Decodes.option {item : Decoder α} {P : α → Prop} {enc : α → List UInt8} (h : Decodes item P enc) :
    Decodes (decodeOption item) (fun x => ∀ a ∈ x, P a) (encodeOption enc) := by
  intro bs x rest
  simp only [decodeOption, (decodes_LE 1).bind_iff]
  constructor
  · intro hparts
    obtain ⟨tag, mid, ⟨_, hbs⟩, hrun⟩ := hparts
    split at hrun
    · obtain ⟨hx, hmid⟩ := (pure_iff ..).mp hrun
      subst hx hmid
      exact ⟨fun a ha => absurd ha (Option.not_mem_none a), hbs⟩
    · obtain ⟨a, ha, hx⟩ := (checked_iff ..).mp hrun
      cases hx
      obtain ⟨hP, hmid⟩ := (h mid a rest).mp ha
      subst hmid
      refine ⟨fun b hb => Option.mem_some.mp hb ▸ hP, ?_⟩
      rw [hbs, encodeOption, List.append_assoc]
    · cases hrun
  · intro hparts
    obtain ⟨hall, hbs⟩ := hparts
    cases x with
    | none => exact ⟨0, rest, ⟨by decide, hbs⟩, rfl⟩
    | some a =>
      rw [encodeOption, List.append_assoc] at hbs
      refine ⟨1, enc a ++ rest, ⟨by decide, hbs⟩, ?_⟩
      exact (checked_iff ..).mpr ⟨a, (h _ a rest).mpr ⟨hall a rfl, rfl⟩, rfl⟩

end Kit.BorshDecode
