/-
Identifiers of blocks (types/block.go, types/part_set.go of hetu-cometbft).

A block is named by its hash and by the header of its part set: the number
of parts it is cut into and their Merkle root. Both may be empty, which is
how a vote for no block names it.
-/
import Mathlib.Data.List.Basic

namespace HetuEngine.Comet

abbrev Bytes := List UInt8

def tmhashSize : Nat := 32

/-- `ValidateHash`, without its error. -/
def validateHash (h : Bytes) : Bool := !(0 < h.length && h.length ≠ tmhashSize)

structure PartSetHeader where
  total : Nat
  hash : Bytes
  deriving DecidableEq

def PartSetHeader.isZero (psh : PartSetHeader) : Bool := psh.total = 0 && psh.hash.length = 0

/-- `PartSetHeader.ValidateBasic`, without its error. -/
def PartSetHeader.validateBasic (psh : PartSetHeader) : Bool := validateHash psh.hash

structure BlockID where
  hash : Bytes
  partSetHeader : PartSetHeader
  deriving DecidableEq

namespace BlockID

def zero : BlockID := ⟨[], ⟨0, []⟩⟩

/-- `BlockID.IsZero`, and `ProtoBlockIDIsNil`. -/
def isZero (id : BlockID) : Bool := id.hash.length = 0 && id.partSetHeader.isZero

def isComplete (id : BlockID) : Bool :=
  id.hash.length = tmhashSize && 0 < id.partSetHeader.total
    && id.partSetHeader.hash.length = tmhashSize

/-- `BlockID.ValidateBasic`, without its error. -/
def validateBasic (id : BlockID) : Bool := validateHash id.hash && id.partSetHeader.validateBasic

lemma isZero_iff {id : BlockID} : id.isZero = true ↔ id = zero := by
  obtain ⟨hash, ⟨total, partsHash⟩⟩ := id
  simp [isZero, zero, PartSetHeader.isZero]

end BlockID

end HetuEngine.Comet
