/-
Blocks in parts (types/part_set.go of hetu-cometbft).

A part set is made from a header, the number of parts and their Merkle root,
and accepts the parts that a Merkle proof ties to the root. Nothing ties the
root to the hash of the block that the bytes decode to.

# Pointers

The consensus state holds up to three pointers to part sets, and several may
point to one set; a part added through one is seen through all. A
`PartSetPtr` is the identity of a part set with its present contents, and
`write` changes the contents of all pointers to one set. The header of a set
never changes.
-/
import HetuEngine.Comet.Types
import Mathlib.Data.Int.Order.Basic

namespace HetuEngine.Comet

def blockPartSizeBytes : Nat := 65536

def maxAunts : Nat := 100

structure Proof where
  total : Int
  index : Int
  leafHash : Bytes
  aunts : List Bytes
  deriving DecidableEq

/-- `Proof.ValidateBasic`, without its error. -/
def Proof.validateBasic (proof : Proof) : Bool :=
  0 ≤ proof.total && 0 ≤ proof.index && proof.leafHash.length = tmhashSize
    && proof.aunts.length ≤ maxAunts && proof.aunts.all fun aunt => aunt.length = tmhashSize

structure Part where
  index : Nat
  bytes : Bytes
  proof : Proof
  deriving DecidableEq

/-- `Part.ValidateBasic`, without its error. -/
def Part.validateBasic (part : Part) : Bool :=
  part.bytes.length ≤ blockPartSizeBytes && !((part.index : Int)
    < part.proof.total - 1 && part.bytes.length ≠ blockPartSizeBytes) && part.proof.validateBasic

structure PartSet where
  total : Nat
  hash : Bytes
  parts : List (Option Part)
  count : Nat
  byteSize : Nat

inductive PartSetError where
  | unexpectedIndex
  | invalidProof

namespace PartSet

def fromHeader (header : PartSetHeader) : PartSet where
  total := header.total
  hash := header.hash
  parts := List.replicate header.total none
  count := 0
  byteSize := 0

def header (ps : PartSet) : PartSetHeader := ⟨ps.total, ps.hash⟩

def isComplete (ps : PartSet) : Bool := ps.count = ps.total

/-- `AddPart`, with `Proof.Verify` as a parameter: the new set, and whether
the part was added. -/
def addPart (verify : Proof → (root leaf : Bytes) → Bool) (ps : PartSet)
    (part : Part) : Except PartSetError (PartSet × Bool) :=
  if ps.total ≤ part.index then .error .unexpectedIndex
  else if (ps.parts.getD part.index none).isSome then .ok (ps, false)
  else if part.proof.total ≠ ps.total then .error .invalidProof
  else if !verify part.proof ps.hash part.bytes then .error .invalidProof
  else
    .ok ({ ps with
      parts := ps.parts.set part.index (some part)
      count := ps.count + 1
      byteSize := ps.byteSize + part.bytes.length }, true)

/-- What `GetReader` yields of a complete set. -/
def bytes (ps : PartSet) : Bytes := (ps.parts.map fun part => part.elim [] Part.bytes).flatten

def fill (ps contents : PartSet) : PartSet :=
  { ps with parts := contents.parts, count := contents.count, byteSize := contents.byteSize }

end PartSet

structure PartSetPtr where
  id : Nat
  set : PartSet

def PartSetPtr.write (ptr : PartSetPtr) (id : Nat) (contents : PartSet) :
    PartSetPtr :=
  if ptr.id = id then { ptr with set := ptr.set.fill contents } else ptr

/-- What of a part set never changes: its identity and its header. -/
def PartSetPtr.handle (ptr : PartSetPtr) : Nat × PartSetHeader := (ptr.id, ptr.set.header)

@[simp] lemma PartSetPtr.handle_write (ptr : PartSetPtr) (id : Nat)
    (contents : PartSet) : (ptr.write id contents).handle = ptr.handle := by
  unfold write
  split
  · rfl
  rfl

/-- `Header` of a pointer that may be nil. -/
def headerOf (ptr : Option PartSetPtr) : PartSetHeader :=
  match ptr with
  | some ptr => ptr.set.header
  | none => ⟨0, []⟩

/-- `HasHeader` of a pointer that may be nil. -/
def hasHeader (ptr : Option PartSetPtr) (header : PartSetHeader) : Bool :=
  match ptr with
  | some ptr => ptr.set.header = header
  | none => false

end HetuEngine.Comet
