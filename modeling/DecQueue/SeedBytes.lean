import DecQueue.Address
import DecQueue.State
import DecQueue.Kit.Borsh

/-! # Seeds as bytes (program/src/lib.rs, account contexts)

An address is a hash of the concatenated seeds, the bump and the program id.
The concatenation has no separators: a seed list is known by its bytes only,
not by where one seed ends and the next begins. Every pair of kinds is
compared here. One pair can meet: the tag `queue` is a prefix of
`queue_head`, and the authority follows it with 32 bytes of its own. -/

namespace DecQueue.SeedBytes
open Kit.Borsh State Address

/-! ### Strings -/

def asBytes (s : String) : Bytes := s.toUTF8.data.toList

theorem length_asBytes (s : String) : (asBytes s).length = s.utf8ByteSize := Array.length_toList

theorem asBytes_injective {s t : String} (h : asBytes s = asBytes t) : s = t :=
  String.toByteArray_inj.mp (ByteArray.ext (Array.toList_inj.mp h))

theorem queue_bytes : asBytes "queue" = [113, 117, 101, 117, 101] := by decide

theorem queueHead_bytes : asBytes "queue_head" = asBytes "queue" ++ [95, 104, 101, 97, 100] := by decide

theorem index_bytes : asBytes "index" = [105, 110, 100, 101, 120] := by decide

theorem job_bytes : asBytes "job" = [106, 111, 98] := by decide

/-! ### Seed lists -/

def seedBytes : Seeds Pubkey → Bytes
  | .queue authority name => asBytes "queue" ++ authority.toList ++ asBytes name
  | .queueHead queue => asBytes "queue_head" ++ queue.toList
  | .index queue seq => asBytes "index" ++ queue.toList ++ leBytes 8 seq
  | .job queue jobId => asBytes "job" ++ queue.toList ++ leBytes 8 jobId

/-- An account the program can have: the name passed `initialize_queue`, and
a number is a `u64`. -/
def Identity : Seeds Pubkey → Prop
  | .queue _ name => 0 < name.utf8ByteSize ∧ name.utf8ByteSize ≤ 32
  | .queueHead _ => True
  | .index _ seq => seq ≤ u64Max
  | .job _ jobId => jobId ≤ u64Max

instance (s : Seeds Pubkey) : Decidable (Identity s) :=
  match s with
  | .queue _ name => inferInstanceAs (Decidable (0 < name.utf8ByteSize ∧ name.utf8ByteSize ≤ 32))
  | .queueHead _ => inferInstanceAs (Decidable True)
  | .index _ seq => inferInstanceAs (Decidable (seq ≤ u64Max))
  | .job _ jobId => inferInstanceAs (Decidable (jobId ≤ u64Max))

/-- The authority starts with `_head` and goes on with the key of another
queue, which the name completes. -/
structure Shadows (authority : Pubkey) (name : String) (queue : Pubkey) : Prop where
  marker : authority.toList.take 5 = asBytes "_head"
  body : authority.toList.drop 5 = queue.toList.take 27
  rest : asBytes name = queue.toList.drop 27

instance (authority : Pubkey) (name : String) (queue : Pubkey) : Decidable (Shadows authority name queue) :=
  decidable_of_iff (authority.toList.take 5 = asBytes "_head" ∧
    authority.toList.drop 5 = queue.toList.take 27 ∧ asBytes name = queue.toList.drop 27)
    ⟨fun h => ⟨h.1, h.2.1, h.2.2⟩, fun h => ⟨h.marker, h.body, h.rest⟩⟩

/-- The one pair of kinds whose seeds can meet. -/
def Overlap : Seeds Pubkey → Seeds Pubkey → Prop
  | .queue authority name, .queueHead queue => Shadows authority name queue
  | .queueHead queue, .queue authority name => Shadows authority name queue
  | _, _ => False

/-! ### Pairs of kinds -/

theorem queue_eq_queueHead_iff (authority : Pubkey) (name : String) (queue : Pubkey) :
    seedBytes (.queue authority name) = seedBytes (.queueHead queue) ↔ Shadows authority name queue := by
  have hmarker : asBytes "_head" = [95, 104, 101, 97, 100] := by decide
  have hauthority : authority.toList = authority.toList.take 5 ++ authority.toList.drop 5 :=
    (List.take_append_drop ..).symm
  have hqueue : queue.toList = queue.toList.take 27 ++ queue.toList.drop 27 :=
    (List.take_append_drop ..).symm
  simp only [seedBytes, queueHead_bytes, List.append_assoc, List.append_cancel_left_eq]
  constructor
  · intro h
    rw [hauthority, hqueue, List.append_assoc] at h
    obtain ⟨hm, hrest⟩ := List.append_inj h (by simp)
    obtain ⟨hb, hn⟩ := List.append_inj hrest (by simp)
    exact ⟨hm.trans hmarker.symm, hb, hn⟩
  · intro h
    rw [hauthority, h.marker, h.body, h.rest, hmarker, List.append_assoc, ← hqueue]

theorem head_inj {q q' : Pubkey} {tag a b : Bytes} (h : tag ++ q.toList ++ a = tag ++ q'.toList ++ b) :
    q = q' ∧ a = b := by
  rw [List.append_assoc, List.append_assoc, List.append_cancel_left_eq] at h
  obtain ⟨hq, hab⟩ := List.append_inj h (by simp)
  exact ⟨Vector.toList_inj.mp hq, hab⟩

theorem leBytes_inj {m n : Nat} (hm : m ≤ u64Max) (hn : n ≤ u64Max) (h : leBytes 8 m = leBytes 8 n) :
    m = n := by
  have hmax : u64Max + 1 = 256 ^ 8 := rfl
  exact leBytes_injective (by omega) (by omega) h

/-- Two accounts of the same kind, or of two kinds other than queue and head,
have different seeds. -/
theorem eq_of_seedBytes {s s' : Seeds Pubkey} (hs : Identity s) (hs' : Identity s')
    (h : seedBytes s = seedBytes s') : s = s' ∨ Overlap s s' := by
  cases s with
  | queue authority name =>
    cases s' with
    | queue authority' name' =>
      obtain ⟨rfl, hname⟩ := head_inj h
      exact .inl (congrArg _ (asBytes_injective hname))
    | queueHead queue => exact .inr ((queue_eq_queueHead_iff authority name queue).mp h)
    | index | job => simp [seedBytes, queue_bytes, index_bytes, job_bytes] at h
  | queueHead queue =>
    cases s' with
    | queue authority name => exact .inr ((queue_eq_queueHead_iff authority name queue).mp h.symm)
    | queueHead queue' =>
      have hq : queue = queue' := Vector.toList_inj.mp (List.append_cancel_left h)
      exact .inl (congrArg _ hq)
    | index | job => simp [seedBytes, queueHead_bytes, queue_bytes, index_bytes, job_bytes] at h
  | index queue seq =>
    cases s' with
    | index queue' seq' =>
      obtain ⟨rfl, hseq⟩ := head_inj h
      exact .inl (congrArg _ (leBytes_inj hs hs' hseq))
    | queue | queueHead | job =>
      simp [seedBytes, queueHead_bytes, queue_bytes, index_bytes, job_bytes] at h
  | job queue jobId =>
    cases s' with
    | job queue' jobId' =>
      obtain ⟨rfl, hid⟩ := head_inj h
      exact .inl (congrArg _ (leBytes_inj hs hs' hid))
    | queue | queueHead | index =>
      simp [seedBytes, queueHead_bytes, queue_bytes, index_bytes, job_bytes] at h

theorem seedBytes_of_overlap {s s' : Seeds Pubkey} (h : Overlap s s') : seedBytes s = seedBytes s' := by
  cases s with
  | queue authority name =>
    cases s' with
    | queueHead queue => exact (queue_eq_queueHead_iff authority name queue).mpr h
    | queue | index | job => exact h.elim
  | queueHead queue =>
    cases s' with
    | queue authority name => exact ((queue_eq_queueHead_iff authority name queue).mpr h).symm
    | queueHead | index | job => exact h.elim
  | index | job => exact h.elim

/-! ### Separation -/

theorem seeds_separated_iff (s s' : Seeds Pubkey) (hs : Identity s) (hs' : Identity s') (hne : s ≠ s') :
    seedBytes s ≠ seedBytes s' ↔ ¬Overlap s s' := by
  constructor
  · intro h ho
    exact h (seedBytes_of_overlap ho)
  · intro ho h
    exact (eq_of_seedBytes hs hs' h).elim hne ho

theorem seeds_separated_iff_demo :
    seedBytes (.index (.replicate 32 97) 0) ≠ seedBytes (.index (.replicate 32 97) 1) :=
  (seeds_separated_iff (.index (.replicate 32 97) 0) (.index (.replicate 32 97) 1) (by decide)
    (by decide) (by decide)).mpr id

/-- `_head`, then 27 letters `a`. -/
def spoofed : Pubkey := ⟨(asBytes "_head" ++ List.replicate 27 97).toArray, by decide⟩

/-- A queue named `aaaaa` of this authority has the seeds of the head record
of the queue whose key is 32 letters `a`. -/
theorem seeds_collide :
    Identity (.queue spoofed "aaaaa") ∧ Identity (.queueHead (.replicate 32 97)) ∧
      seedBytes (.queue spoofed "aaaaa") = seedBytes (.queueHead (.replicate 32 97)) := by
  refine ⟨by decide, trivial, ?_⟩
  rw [queue_eq_queueHead_iff]
  decide

end DecQueue.SeedBytes
