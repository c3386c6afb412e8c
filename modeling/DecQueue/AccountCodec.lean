import DecQueue.AccountSpace
import DecQueue.Kit.BorshDecode

/-! # Reading account data back (program/src/state.rs, `#[account]`)

`AccountDeserialize` of an Anchor account: the discriminator of the type, then
the fields in the order of the declaration. What follows them in the slice is
not looked at, so the padding, or what a longer record has left behind, does
not matter. A key is its 32 bytes on the chain; here that is asked only of the
keys that occur. -/

namespace DecQueue.AccountCodec
open Kit.Borsh Kit.BorshDecode Kit.Fallible State Address Program AccountSpace

/-- Every 32 bytes are a key. -/
structure KeyCodec (K : Type) where
  pubkey : K → Pubkey
  ofPubkey : Pubkey → K
  pubkey_ofPubkey : ∀ bytes, pubkey (ofPubkey bytes) = bytes

variable {K : Type}

/-- The bytes of the key are those of no other key that is read back. -/
def KeyCodec.Known (codec : KeyCodec K) (k : K) : Prop := codec.ofPubkey (codec.pubkey k) = k

instance [DecidableEq K] (codec : KeyCodec K) (k : K) : Decidable (codec.Known k) :=
  inferInstanceAs (Decidable (codec.ofPubkey (codec.pubkey k) = k))

inductive AccountType where
  | queue | queueHead | jobIndex | job
  deriving DecidableEq, Repr

def typeOf : Account K → AccountType
  | .queue _ => .queue
  | .queueHead _ => .queueHead
  | .jobIndex _ => .jobIndex
  | .job _ => .job

/-- The first eight bytes of `sha256("account:Queue")` and so on. -/
structure Discriminators where
  of : AccountType → Vector UInt8 8
  injective : Function.Injective of

/-! ### Decoders -/

def statusOfIndex : Nat → Option JobStatus
  | 0 => some .pending
  | 1 => some .processing
  | 2 => some .completed
  | 3 => some .failed
  | 4 => some .cancelled
  | _ => none

def decodeStatus : Decoder JobStatus := checked (decodeLE 1) statusOfIndex

section
variable (codec : KeyCodec K)

def decodePubkey : Decoder K :=
  checked (takeBytes 32) fun bytes => (arrayOfBytes 32 bytes).map codec.ofPubkey

def deserializeQueue : Decoder (Queue K) := do
  let authority ← decodePubkey codec
  let name ← decodeString
  let jobCount ← decodeLE 8
  let pendingCount ← decodeLE 8
  let processedCount ← decodeLE 8
  let failedCount ← decodeLE 8
  let maxRetries ← decodeLE 1
  let paused ← decodeBool
  let createdAt ← decodeInt64
  let bump ← decodeLE 1
  pure ⟨authority, name, jobCount, pendingCount, processedCount, failedCount, maxRetries, paused,
    createdAt, bump⟩

def deserializeQueueHead : Decoder (QueueHead K) := do
  let authority ← decodePubkey codec
  let headIndexSeq ← decodeLE 8
  let tailIndexSeq ← decodeLE 8
  let totalJobs ← decodeLE 8
  let bump ← decodeLE 1
  pure ⟨authority, headIndexSeq, tailIndexSeq, totalJobs, bump⟩

def deserializeJob : Decoder (Job K) := do
  let queue ← decodePubkey codec
  let jobId ← decodeLE 8
  let jobType ← decodeString
  let payload ← decodeBytes
  let status ← decodeStatus
  let priority ← decodeLE 1
  let createdAt ← decodeInt64
  let executeAfter ← decodeInt64
  let attempts ← decodeLE 1
  let maxRetries ← decodeLE 1
  let worker ← decodeOption (decodePubkey codec)
  let startedAt ← decodeOption decodeInt64
  let completedAt ← decodeOption decodeInt64
  let result ← decodeOption decodeString
  let errorMessage ← decodeOption decodeString
  let bump ← decodeLE 1
  pure ⟨queue, jobId, jobType, payload, status, priority, createdAt, executeAfter, attempts,
    maxRetries, worker, startedAt, completedAt, result, errorMessage, bump⟩

def deserializeJobIndex : Decoder (JobIndex K) := do
  let queue ← decodePubkey codec
  let seq ← decodeLE 8
  let nextSeq ← decodeLE 8
  let jobIds ← decodeVec (decodeLE 8)
  let bump ← decodeLE 1
  pure ⟨queue, seq, nextSeq, jobIds, bump⟩

def deserialize : AccountType → Decoder (Account K)
  | .queue => checked (deserializeQueue codec) fun q => some (.queue q)
  | .queueHead => checked (deserializeQueueHead codec) fun h => some (.queueHead h)
  | .jobIndex => checked (deserializeJobIndex codec) fun p => some (.jobIndex p)
  | .job => checked (deserializeJob codec) fun j => some (.job j)

end

/-! ### Values that have an encoding -/

abbrev U8 (n : Nat) : Prop := n < 256 ^ 1
abbrev U64 (n : Nat) : Prop := n < 256 ^ 8

/-- The text is short enough for its length to be written in four bytes. -/
abbrev ShortString (s : String) : Prop := s.utf8ByteSize < 256 ^ 4

section
variable (codec : KeyCodec K)

structure QueueEncodable (q : Queue K) : Prop where
  authority : codec.Known q.authority
  name : ShortString q.name
  jobCount : U64 q.jobCount
  pendingCount : U64 q.pendingCount
  processedCount : U64 q.processedCount
  failedCount : U64 q.failedCount
  maxRetries : U8 q.maxRetries
  bump : U8 q.bump

structure HeadEncodable (h : QueueHead K) : Prop where
  authority : codec.Known h.authority
  headIndexSeq : U64 h.headIndexSeq
  tailIndexSeq : U64 h.tailIndexSeq
  totalJobs : U64 h.totalJobs
  bump : U8 h.bump

structure JobEncodable (j : Job K) : Prop where
  queue : codec.Known j.queue
  jobId : U64 j.jobId
  jobType : ShortString j.jobType
  payload : j.payload.length < 256 ^ 4
  priority : U8 j.priority
  attempts : U8 j.attempts
  maxRetries : U8 j.maxRetries
  worker : ∀ w ∈ j.worker, codec.Known w
  result : ∀ r ∈ j.result, ShortString r
  errorMessage : ∀ e ∈ j.errorMessage, ShortString e
  bump : U8 j.bump

structure PageEncodable (p : JobIndex K) : Prop where
  queue : codec.Known p.queue
  seq : U64 p.seq
  nextSeq : U64 p.nextSeq
  count : p.jobIds.length < 256 ^ 4
  jobIds : ∀ id ∈ p.jobIds, U64 id
  bump : U8 p.bump

def Encodable : Account K → Prop
  | .queue q => QueueEncodable codec q
  | .queueHead h => HeadEncodable codec h
  | .jobIndex p => PageEncodable codec p
  | .job j => JobEncodable codec j

end

/-! ### The decoders read exactly the encodings -/

section
variable {codec : KeyCodec K}

theorem decodes_status : Decodes decodeStatus (fun _ => True) (fun s => leBytes 1 (variantIndex s)) := by
  apply (decodes_LE 1).checked
  · intro n s
    constructor
    · intro ⟨hn, hs⟩
      refine ⟨hn, trivial, ?_⟩
      unfold statusOfIndex at hs
      split at hs <;> cases hs <;> rfl
    · intro ⟨hn, _, he⟩
      refine ⟨hn, ?_⟩
      have hlt : variantIndex s < 256 ^ 1 := by cases s <;> decide
      have hv : variantIndex s = n := leBytes_injective hlt hn he
      subst hv
      cases s <;> rfl
  · intro s _
    exact ⟨variantIndex s, by cases s <;> decide, rfl⟩

theorem decodes_pubkey : Decodes (decodePubkey codec) codec.Known (encodePubkey codec.pubkey) := by
  apply (decodes_takeBytes 32).checked
  · intro bytes k
    simp only [Option.map_eq_some_iff, arrayOfBytes_iff]
    constructor
    · intro ⟨hn, key, hkey, hk⟩
      subst hkey hk
      refine ⟨hn, congrArg codec.ofPubkey (codec.pubkey_ofPubkey key), ?_⟩
      show (codec.pubkey (codec.ofPubkey key)).toList = key.toList
      rw [codec.pubkey_ofPubkey]
    · intro ⟨hn, hk, he⟩
      exact ⟨hn, codec.pubkey k, he, hk⟩
  · intro k _
    exact ⟨encodePubkey codec.pubkey k, length_encodePubkey k, rfl⟩

theorem decodes_queue :
    Decodes (deserializeQueue codec) (QueueEncodable codec) (serializeQueue codec.pubkey) := by
  intro bs q rest
  simp only [deserializeQueue, decodes_pubkey.bind_iff, decodes_string.bind_iff,
    (decodes_LE 8).bind_iff, (decodes_LE 1).bind_iff, decodes_bool.bind_iff, decodes_int64.bind_iff,
    pure_iff]
  constructor
  · intro hparts
    obtain ⟨_, _, ⟨ha, h₁⟩, _, _, ⟨hn, h₂⟩, _, _, ⟨hj, h₃⟩, _, _, ⟨hp, h₄⟩, _, _, ⟨hc, h₅⟩, _, _, ⟨hf, h₆⟩,
      _, _, ⟨hm, h₇⟩, _, _, ⟨_, h₈⟩, _, _, ⟨_, h₉⟩, _, _, ⟨hb, h₁₀⟩, he, hrest⟩ := hparts
    subst h₁ h₂ h₃ h₄ h₅ h₆ h₇ h₈ h₉ h₁₀ he hrest
    refine ⟨⟨ha, hn, hj, hp, hc, hf, hm, hb⟩, ?_⟩
    simp only [serializeQueue, List.append_assoc]
  · intro hparts
    obtain ⟨h, hbs⟩ := hparts
    simp only [serializeQueue, List.append_assoc] at hbs
    exact ⟨_, _, ⟨h.authority, hbs⟩, _, _, ⟨h.name, rfl⟩, _, _, ⟨h.jobCount, rfl⟩, _, _,
      ⟨h.pendingCount, rfl⟩, _, _, ⟨h.processedCount, rfl⟩, _, _, ⟨h.failedCount, rfl⟩, _, _,
      ⟨h.maxRetries, rfl⟩, _, _, ⟨trivial, rfl⟩, _, _, ⟨trivial, rfl⟩, _, _, ⟨h.bump, rfl⟩, rfl, rfl⟩

theorem decodes_queueHead :
    Decodes (deserializeQueueHead codec) (HeadEncodable codec) (serializeQueueHead codec.pubkey) := by
  intro bs hd rest
  simp only [deserializeQueueHead, decodes_pubkey.bind_iff, (decodes_LE 8).bind_iff,
    (decodes_LE 1).bind_iff, pure_iff]
  constructor
  · intro hparts
    obtain ⟨_, _, ⟨ha, h₁⟩, _, _, ⟨hh, h₂⟩, _, _, ⟨ht, h₃⟩, _, _, ⟨hj, h₄⟩, _, _, ⟨hb, h₅⟩, he, hrest⟩ := hparts
    subst h₁ h₂ h₃ h₄ h₅ he hrest
    refine ⟨⟨ha, hh, ht, hj, hb⟩, ?_⟩
    simp only [serializeQueueHead, List.append_assoc]
  · intro hparts
    obtain ⟨h, hbs⟩ := hparts
    simp only [serializeQueueHead, List.append_assoc] at hbs
    exact ⟨_, _, ⟨h.authority, hbs⟩, _, _, ⟨h.headIndexSeq, rfl⟩, _, _, ⟨h.tailIndexSeq, rfl⟩, _, _,
      ⟨h.totalJobs, rfl⟩, _, _, ⟨h.bump, rfl⟩, rfl, rfl⟩

theorem decodes_jobIndex :
    Decodes (deserializeJobIndex codec) (PageEncodable codec) (serializeJobIndex codec.pubkey) := by
  intro bs p rest
  simp only [deserializeJobIndex, decodes_pubkey.bind_iff, (decodes_LE 8).bind_iff,
    (decodes_LE 8).vec.bind_iff, (decodes_LE 1).bind_iff, pure_iff]
  constructor
  · intro hparts
    obtain ⟨_, _, ⟨hq, h₁⟩, _, _, ⟨hs, h₂⟩, _, _, ⟨hn, h₃⟩, _, _, ⟨⟨hc, hi⟩, h₄⟩, _, _, ⟨hb, h₅⟩, he, hrest⟩ := hparts
    subst h₁ h₂ h₃ h₄ h₅ he hrest
    refine ⟨⟨hq, hs, hn, hc, hi, hb⟩, ?_⟩
    simp only [serializeJobIndex, List.append_assoc]
  · intro hparts
    obtain ⟨h, hbs⟩ := hparts
    simp only [serializeJobIndex, List.append_assoc] at hbs
    exact ⟨_, _, ⟨h.queue, hbs⟩, _, _, ⟨h.seq, rfl⟩, _, _, ⟨h.nextSeq, rfl⟩, _, _,
      ⟨⟨h.count, h.jobIds⟩, rfl⟩, _, _, ⟨h.bump, rfl⟩, rfl, rfl⟩

theorem decodes_job :
    Decodes (deserializeJob codec) (JobEncodable codec) (serializeJob codec.pubkey) := by
  intro bs j rest
  simp only [deserializeJob, decodes_pubkey.bind_iff, decodes_pubkey.option.bind_iff,
    decodes_string.bind_iff, decodes_string.option.bind_iff, decodes_bytes.bind_iff,
    decodes_status.bind_iff, (decodes_LE 8).bind_iff, (decodes_LE 1).bind_iff,
    decodes_int64.bind_iff, decodes_int64.option.bind_iff, pure_iff]
  constructor
  · intro hparts
    obtain ⟨_, _, ⟨hq, h₁⟩, _, _, ⟨hi, h₂⟩, _, _, ⟨ht, h₃⟩, _, _, ⟨hp, h₄⟩, _, _, ⟨_, h₅⟩, _, _, ⟨hr, h₆⟩,
      _, _, ⟨_, h₇⟩, _, _, ⟨_, h₈⟩, _, _, ⟨ha, h₉⟩, _, _, ⟨hm, h₁₀⟩, _, _, ⟨hw, h₁₁⟩, _, _, ⟨_, h₁₂⟩,
      _, _, ⟨_, h₁₃⟩, _, _, ⟨hres, h₁₄⟩, _, _, ⟨herr, h₁₅⟩, _, _, ⟨hb, h₁₆⟩, he, hrest⟩ := hparts
    subst h₁ h₂ h₃ h₄ h₅ h₆ h₇ h₈ h₉ h₁₀ h₁₁ h₁₂ h₁₃ h₁₄ h₁₅ h₁₆ he hrest
    refine ⟨⟨hq, hi, ht, hp, hr, ha, hm, hw, hres, herr, hb⟩, ?_⟩
    simp only [serializeJob, List.append_assoc]
  · intro hparts
    obtain ⟨h, hbs⟩ := hparts
    simp only [serializeJob, List.append_assoc] at hbs
    exact ⟨_, _, ⟨h.queue, hbs⟩, _, _, ⟨h.jobId, rfl⟩, _, _, ⟨h.jobType, rfl⟩, _, _, ⟨h.payload, rfl⟩,
      _, _, ⟨trivial, rfl⟩, _, _, ⟨h.priority, rfl⟩, _, _, ⟨trivial, rfl⟩, _, _, ⟨trivial, rfl⟩, _, _,
      ⟨h.attempts, rfl⟩, _, _, ⟨h.maxRetries, rfl⟩, _, _, ⟨h.worker, rfl⟩, _, _,
      ⟨fun _ _ => trivial, rfl⟩, _, _, ⟨fun _ _ => trivial, rfl⟩, _, _, ⟨h.result, rfl⟩, _, _,
      ⟨h.errorMessage, rfl⟩, _, _, ⟨h.bump, rfl⟩, rfl, rfl⟩

/-- A record of type `t` is read exactly from an encoding of it. -/
theorem deserialize_iff (t : AccountType) (bs : Bytes) (data : Account K) (rest : Bytes) :
    deserialize codec t bs = some (data, rest) ↔
      (typeOf data = t ∧ Encodable codec data) ∧ bs = serialize codec.pubkey data ++ rest := by
  cases t with
  | queue =>
    simp only [deserialize, checked_iff, decodes_queue bs, Option.some.injEq]
    cases data <;> simp [typeOf, Encodable, serialize]
  | queueHead =>
    simp only [deserialize, checked_iff, decodes_queueHead bs, Option.some.injEq]
    cases data <;> simp [typeOf, Encodable, serialize]
  | jobIndex =>
    simp only [deserialize, checked_iff, decodes_jobIndex bs, Option.some.injEq]
    cases data <;> simp [typeOf, Encodable, serialize]
  | job =>
    simp only [deserialize, checked_iff, decodes_job bs, Option.some.injEq]
    cases data <;> simp [typeOf, Encodable, serialize]

end

/-! ### Account slices -/

inductive SliceError where
  | accountDiscriminatorNotFound | accountDiscriminatorMismatch | accountDidNotDeserialize
  | accountDidNotSerialize
  deriving DecidableEq, Repr

section
variable (discriminators : Discriminators) (codec : KeyCodec K)

/-- `try_deserialize` of `Account<'info, T>`. -/
def tryDeserialize (t : AccountType) (slice : Bytes) : Except SliceError (Account K) := do
  require (8 ≤ slice.length) .accountDiscriminatorNotFound
  require (slice.take 8 = (discriminators.of t).toList) .accountDiscriminatorMismatch
  let (data, _) ← okOr (deserialize codec t (slice.drop 8)) .accountDidNotDeserialize
  pure data

def discriminatorOf (data : Account K) : Vector UInt8 8 := discriminators.of (typeOf data)

/-- The account the slice is read as, whatever its type. -/
def readAccount (slice : Bytes) : Option (Account K) :=
  [AccountType.queue, .queueHead, .jobIndex, .job].findSome? fun t =>
    (tryDeserialize discriminators codec t slice).toOption

/-- The front of the slice is the account as it is written back. -/
def Holds (data : Account K) (slice : Bytes) : Prop :=
  ∃ padding, slice = (discriminatorOf discriminators data).toList ++ serialize codec.pubkey data ++ padding

end

section
variable {discriminators : Discriminators} {codec : KeyCodec K} {slice : Bytes} {data : Account K}

theorem tryDeserialize_iff (t : AccountType) :
    tryDeserialize discriminators codec t slice = .ok data ↔
      typeOf data = t ∧ Encodable codec data ∧ Holds discriminators codec data slice := by
  simp only [tryDeserialize, bind_ok_iff, require_ok_iff, okOr_ok_iff, Prod.exists, deserialize_iff,
    pure_ok_iff, exists_const]
  constructor
  · intro hparts
    obtain ⟨_, hdisc, data', padding, ⟨⟨ht, henc⟩, hrest⟩, he⟩ := hparts
    subst he ht
    refine ⟨rfl, henc, padding, ?_⟩
    rw [List.append_assoc, ← hrest, discriminatorOf, ← hdisc, List.take_append_drop]
  · intro hparts
    obtain ⟨ht, henc, padding, hslice⟩ := hparts
    subst ht hslice
    have hlength : (discriminators.of (typeOf data)).toList.length = 8 := Vector.length_toList
    have htake : ∀ l, ((discriminators.of (typeOf data)).toList ++ l).take 8 =
        (discriminators.of (typeOf data)).toList := fun l => List.take_left' hlength
    have hdrop : ∀ l, ((discriminators.of (typeOf data)).toList ++ l).drop 8 = l :=
      fun l => List.drop_left' hlength
    rw [discriminatorOf, List.append_assoc]
    refine ⟨?_, htake _, data, padding, ⟨⟨rfl, henc⟩, hdrop _⟩, rfl⟩
    rw [List.length_append]
    omega

theorem take_of_holds (h : Holds discriminators codec data slice) :
    slice.take 8 = (discriminators.of (typeOf data)).toList := by
  obtain ⟨padding, hslice⟩ := h
  rw [hslice, List.append_assoc]
  exact List.take_left' Vector.length_toList

/-- No slice can be read as two accounts. -/
theorem holds_unique {data' : Account K} (henc : Encodable codec data) (henc' : Encodable codec data')
    (h : Holds discriminators codec data slice) (h' : Holds discriminators codec data' slice) :
    data = data' := by
  have htype : typeOf data' = typeOf data := by
    apply discriminators.injective
    apply Vector.toList_inj.mp
    rw [← take_of_holds h, ← take_of_holds h']
  have hread := (tryDeserialize_iff (typeOf data)).mpr ⟨rfl, henc, h⟩
  have hread' := (tryDeserialize_iff (typeOf data)).mpr ⟨htype, henc', h'⟩
  exact Except.ok.inj (hread.symm.trans hread')

/-- A slice is read as an account if and only if it holds one; the type is
told by the discriminator. -/
theorem readAccount_iff : readAccount discriminators codec slice = some data ↔
    Encodable codec data ∧ Holds discriminators codec data slice := by
  have hread : ∀ t, (tryDeserialize discriminators codec t slice).toOption = some data ↔
      typeOf data = t ∧ Encodable codec data ∧ Holds discriminators codec data slice := by
    intro t
    rw [← tryDeserialize_iff]
    cases tryDeserialize discriminators codec t slice <;> simp [Except.toOption]
  unfold readAccount
  constructor
  · intro h
    obtain ⟨t, _, ht⟩ := List.exists_of_findSome?_eq_some h
    exact ((hread t).mp ht).2
  · intro hparts
    obtain ⟨henc, h⟩ := hparts
    have hmem : typeOf data ∈ [AccountType.queue, .queueHead, .jobIndex, .job] := by
      cases data <;> simp [typeOf]
    have hsome : ((tryDeserialize discriminators codec (typeOf data) slice).toOption).isSome := by
      rw [(hread _).mpr ⟨rfl, henc, h⟩]
      rfl
    have hfound : ([AccountType.queue, .queueHead, .jobIndex, .job].findSome? fun t =>
        (tryDeserialize discriminators codec t slice).toOption).isSome :=
      List.findSome?_isSome_iff.mpr ⟨typeOf data, hmem, hsome⟩
    obtain ⟨data', hdata'⟩ := Option.isSome_iff_exists.mp hfound
    obtain ⟨t, _, ht⟩ := List.exists_of_findSome?_eq_some hdata'
    have hread' : tryDeserialize discriminators codec t slice = .ok data' := by
      cases hx : tryDeserialize discriminators codec t slice with
      | error e =>
        rw [hx] at ht
        cases ht
      | ok a =>
        rw [hx] at ht
        exact congrArg Except.ok (Option.some.inj ht)
    obtain ⟨_, henc', h'⟩ := (tryDeserialize_iff t).mp hread'
    rw [hdata', holds_unique henc henc' h h']

theorem tryDeserialize_mismatch {t : AccountType} (h : Holds discriminators codec data slice)
    (hne : t ≠ typeOf data) :
    tryDeserialize discriminators codec t slice = .error .accountDiscriminatorMismatch := by
  have htake := take_of_holds h
  have hlength : 8 ≤ slice.length := by
    have hlen := congrArg List.length htake
    rw [List.length_take, Vector.length_toList] at hlen
    omega
  have hdisc : slice.take 8 ≠ (discriminators.of t).toList := by
    intro he
    exact hne (discriminators.injective (Vector.toList_inj.mp (he.symm.trans htake)))
  simp only [tryDeserialize, require, if_pos hlength, if_neg hdisc]
  rfl

theorem holds_of_writeBack {slice' : Bytes}
    (h : writeBack (discriminatorOf discriminators) codec.pubkey data slice = some slice') :
    Holds discriminators codec data slice' := by
  dsimp only [writeBack] at h
  split at h
  · cases h
    exact ⟨_, rfl⟩
  · cases h

/-- A record that is written over any slice of its space can be read back from
it, as this record only, and not under another type. -/
theorem read_after_write (henc : Encodable codec data)
    (hroom : 8 + (serialize codec.pubkey data).length ≤ space data)
    (hslice : slice.length = space data) :
    ∃ slice', writeBack (discriminatorOf discriminators) codec.pubkey data slice = some slice' ∧
      slice'.length = slice.length ∧
      ∀ t data', (tryDeserialize discriminators codec t slice' = .ok data' ↔
          t = typeOf data ∧ data' = data) ∧
        (t ≠ typeOf data →
          tryDeserialize discriminators codec t slice' = .error .accountDiscriminatorMismatch) := by
  obtain ⟨hwrite, hlength⟩ := writeBack_eq (discriminatorOf discriminators) hroom hslice
  generalize (discriminatorOf discriminators data).toList ++ serialize codec.pubkey data ++
    slice.drop (8 + (serialize codec.pubkey data).length) = slice' at hwrite hlength
  have hholds := holds_of_writeBack hwrite
  refine ⟨slice', hwrite, hlength, fun t data' => ⟨?_, tryDeserialize_mismatch hholds⟩⟩
  rw [tryDeserialize_iff]
  constructor
  · intro ⟨ht, henc', hholds'⟩
    have he := holds_unique henc henc' hholds hholds'
    exact ⟨by rw [← ht, he], he.symm⟩
  · intro ⟨ht, he⟩
    subst ht he
    exact ⟨rfl, henc, hholds⟩

end

/-! ### A codec for the small runs -/

/-- The queue `name` of the first wallet has 32 bytes 255 for a key, a wallet
the bytes of its number. -/
def queueCodec (name : String) : KeyCodec Key where
  pubkey
    | .wallet n => ⟨(leBytes 32 n).toArray, by simp⟩
    | _ => Vector.replicate 32 255
  ofPubkey bytes :=
    if bytes = Vector.replicate 32 255 then address (.queue (.wallet 0) name)
    else .wallet (leValue bytes.toList)
  pubkey_ofPubkey bytes := by
    by_cases h : bytes = Vector.replicate 32 255
    · rw [if_pos h, h]
      rfl
    · rw [if_neg h]
      apply Vector.toList_inj.mp
      have hbytes := leBytes_leValue bytes.toList
      rw [Vector.length_toList] at hbytes
      exact hbytes

end DecQueue.AccountCodec
