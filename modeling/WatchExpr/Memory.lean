/-!
# Memory

The known bytes of the inspected program. Where regions overlap, the one written last counts.
-/

namespace WatchExpr

/-- Bytes from an address on. -/
structure Region where
  address : UInt64
  bytes : List UInt8
deriving DecidableEq

namespace Region

/-- The bytes of a region from an address on, if the address is not in front of it. -/
def from? (r : Region) (address : UInt64) : Option (List UInt8) :=
  let skipped := address.toNat - r.address.toNat
  if r.address ≤ address ∧ skipped ≤ r.bytes.length then some (r.bytes.drop skipped) else none

/-- A number of bytes that all lie inside the region. -/
def read? (r : Region) (address : UInt64) (size : Nat) : Option (List UInt8) :=
  (r.from? address).bind fun bytes =>
    if size ≤ bytes.length then some (bytes.take size) else none

/-- The byte at an address. -/
def byte? (r : Region) (address : UInt64) : Option UInt8 :=
  (r.from? address).bind List.head?

end Region

/-- The regions of a memory, the one written last in front. -/
structure Memory where
  regions : List Region := []
deriving DecidableEq

namespace Memory

/-- Writes bytes. -/
def write (m : Memory) (address : UInt64) (bytes : List UInt8) : Memory :=
  ⟨⟨address, bytes⟩ :: m.regions⟩

/-- The byte at an address. -/
def byte? (m : Memory) (address : UInt64) : Option UInt8 :=
  m.regions.findSome? (·.byte? address)

/-- A number of bytes, each looked up by itself. An address past the last one has no byte. -/
def bytes? (m : Memory) (address : Nat) : Nat → Option (List UInt8)
  | 0 => some []
  | size + 1 =>
    if address < UInt64.size then
      (m.byte? (UInt64.ofNat address)).bind fun b =>
        (m.bytes? (address + 1) size).map (b :: ·)
    else none

/-- A number of bytes. The region written last is asked first; if it does not hold all of them,
each byte is looked up by itself. -/
def read? (m : Memory) (address : UInt64) (size : Nat) : Option (List UInt8) :=
  match m.regions.head?.bind (·.read? address size) with
  | some bytes => some bytes
  | none => m.bytes? address.toNat size

end Memory

end WatchExpr
