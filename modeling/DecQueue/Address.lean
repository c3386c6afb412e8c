import Mathlib.Tactic.Common

/-! # Program derived addresses

`Seeds` are the seed lists declared in the account contexts of lib.rs. The
address function itself hashes them and lives outside the program, so it is a
parameter: `find_program_address` returns an address and the bump under which
`create_program_address` gives it again. That two seed lists never share an
address is an idealisation: the hash sees only the bytes of a list, and those
of a queue and of a queue head can be the same (`SeedBytes.Overlap`). -/

namespace DecQueue.Address

/-- A key of the chain: 32 bytes. -/
abbrev Pubkey := Vector UInt8 32

inductive Seeds (K : Type) where
  -- [b"queue", authority, name]
  | queue (authority : K) (name : String)
  -- [b"queue_head", queue]
  | queueHead (queue : K)
  -- [b"index", queue, seq.to_le_bytes()]
  | index (queue : K) (seq : Nat)
  -- [b"job", queue, job_id.to_le_bytes()]
  | job (queue : K) (jobId : Nat)
  deriving DecidableEq

class AddressDerivation (K : Type) where
  createProgramAddress : Seeds K → Nat → Option K
  findProgramAddress : Seeds K → K × Nat
  find_create : ∀ s, createProgramAddress s (findProgramAddress s).2 = some (findProgramAddress s).1
  create_injective : ∀ {s s' b b' k}, createProgramAddress s b = some k →
    createProgramAddress s' b' = some k → s = s'

section
variable {K : Type} [AddressDerivation K]

def address (s : Seeds K) : K := (AddressDerivation.findProgramAddress s).1

def bumpOf (s : Seeds K) : Nat := (AddressDerivation.findProgramAddress s).2

theorem create_bumpOf (s : Seeds K) :
    AddressDerivation.createProgramAddress s (bumpOf s) = some (address s) := AddressDerivation.find_create s

theorem address_injective {s s' : Seeds K} (h : address s = address s') : s = s' :=
  AddressDerivation.create_injective (create_bumpOf s) (h ▸ create_bumpOf s')

theorem address_inj {s s' : Seeds K} : address s = address s' ↔ s = s' :=
  ⟨address_injective, congrArg address⟩

/-- Whatever bump is passed, an address only checks against its own seeds. -/
theorem seeds_of_create {s s' : Seeds K} {b : Nat}
    (h : AddressDerivation.createProgramAddress s b = some (address s')) : s = s' :=
  AddressDerivation.create_injective h (create_bumpOf s')

end

/-! ### Addresses as terms

The assumptions on the derivation are consistent: addresses can be the seed
lists themselves, next to the keys of ordinary wallets. -/

inductive Key where
  | wallet (n : Nat)
  | queue (authority : Key) (name : String)
  | queueHead (queue : Key)
  | index (queue : Key) (seq : Nat)
  | job (queue : Key) (jobId : Nat)
  deriving DecidableEq

def Key.ofSeeds : Seeds Key → Key
  | .queue a n => .queue a n
  | .queueHead q => .queueHead q
  | .index q s => .index q s
  | .job q i => .job q i

theorem Key.ofSeeds_injective : Function.Injective Key.ofSeeds := by
  intro s s' h
  cases s <;> cases s' <;> simp_all [Key.ofSeeds]

instance : AddressDerivation Key where
  createProgramAddress s b := if b = 255 then some (Key.ofSeeds s) else none
  findProgramAddress s := (Key.ofSeeds s, 255)
  find_create _ := rfl
  create_injective := by
    intro s s' b b' k h h'
    apply Key.ofSeeds_injective
    split at h
    · split at h'
      · exact Option.some.inj (h.trans h'.symm)
      · cases h'
    · cases h

end DecQueue.Address
