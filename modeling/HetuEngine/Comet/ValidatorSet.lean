/-
Validator sets (types/validator.go, types/validator_set.go of
hetu-cometbft): who may vote with what power, and whose turn it is to
propose.

The order of the list fixes the validators' indices for a height. What
`NewValidatorSet` and `UpdateWithChangeSet` guarantee of every set is part of
the type: powers are positive, addresses differ and the total power is
bounded, so that the quorum arithmetic does not overflow. A set that somebody
sends has only what decoding it guarantees (`ReceivedSet`): it may name a
validator twice, or one without power.

Priorities are int64 values. Sums that the source clips are clipped here;
where it lets them wrap around, `wrap64` does so.
-/
import HetuEngine.Comet.Types
import Mathlib.Data.List.Nodup
import Mathlib.Algebra.Order.Ring.Int

namespace HetuEngine.Comet

def maxInt32 : Int := 2 ^ 31 - 1
def maxInt64 : Int := 2 ^ 63 - 1
def minInt64 : Int := -2 ^ 63

/-- An int64 result that wraps around. -/
def wrap64 (x : Int) : Int := Int.bmod x (2 ^ 64)

lemma wrap64_of_range {x : Int} (hmin : minInt64 ≤ x) (hmax : x ≤ maxInt64) :
    wrap64 x = x := by
  unfold minInt64 at hmin
  unfold maxInt64 at hmax
  unfold wrap64
  rw [Int.bmod_def]
  split
  · omega
  omega

def safeAddClip (a b : Int) : Int :=
  if maxInt64 < a + b then maxInt64
  else if a + b < minInt64 then minInt64
  else a + b

def safeSubClip (a b : Int) : Int :=
  if a - b < minInt64 then minInt64
  else if maxInt64 < a - b then maxInt64
  else a - b

def maxTotalVotingPower : Int := maxInt64 / 8

def priorityWindowSizeFactor : Int := 2

structure Validator where
  address : Bytes
  pubKey : Bytes
  votingPower : Int
  proposerPriority : Int
  deriving DecidableEq

/-- `CompareProposerPriority` of two validators with different addresses:
the one with higher priority, on a tie the one with the smaller address. -/
def Validator.compareProposerPriority (v other : Validator) : Validator :=
  if other.proposerPriority < v.proposerPriority then v
  else if v.proposerPriority < other.proposerPriority then other
  else if v.address < other.address then v
  else other

/-- `ValidatorSet`, as `ValidatorSetFromProto` returns it: no power is
negative, and `updateTotalVotingPower` has not panicked. -/
structure ReceivedSet where
  validators : List Validator
  proposer : Option Validator
  power_nonneg : ∀ v ∈ validators, 0 ≤ v.votingPower
  total_le : (validators.map Validator.votingPower).sum ≤ maxTotalVotingPower

/-- `ValidatorSet`, as the node itself builds it. -/
structure ValidatorSet extends ReceivedSet where
  power_pos : ∀ v ∈ validators, 0 < v.votingPower
  addresses_nodup : (validators.map Validator.address).Nodup
  power_nonneg := fun v hv => le_of_lt (power_pos v hv)

instance : Coe ValidatorSet ReceivedSet := ⟨ValidatorSet.toReceivedSet⟩

namespace ReceivedSet

def size (vals : ReceivedSet) : Nat := vals.validators.length

/-- `TotalVotingPower`. The check of `updateTotalVotingPower` is the bound
in the type. -/
def totalVotingPower (vals : ReceivedSet) : Int := (vals.validators.map Validator.votingPower).sum

def getByAddress (vals : ReceivedSet) (address : Bytes) : Option (Nat × Validator) :=
  match vals.validators.findIdx? fun val => val.address = address with
  | none => none
  | some idx => (vals.validators[idx]?).map fun val => (idx, val)

def findProposer (vals : ReceivedSet) : Option Validator :=
  vals.validators.foldl (fun proposer val =>
      match proposer with
      | none => some val
      | some p =>
        if val.address = p.address then some p
        else some (p.compareProposerPriority val))
    none

def getProposer (vals : ReceivedSet) : Option Validator :=
  if vals.validators = [] then none
  else
    match vals.proposer with
    | some proposer => some proposer
    | none => vals.findProposer

end ReceivedSet

namespace ValidatorSet

def hasAddress (vals : ValidatorSet) (address : Bytes) : Bool :=
  vals.validators.any fun val => val.address = address

def indexByAddress (vals : ValidatorSet) (address : Bytes) : Int :=
  match vals.validators.findIdx? fun val => val.address = address with
  | some idx => idx
  | none => -1

def getByIndex (vals : ValidatorSet) (index : Int) : Option Validator :=
  if index < 0 then none else vals.validators[index.toNat]?

def powerAt (vals : ValidatorSet) (index : Nat) : Nat :=
  match vals.validators[index]? with
  | some val => val.votingPower.toNat
  | none => 0

def computeMaxMinPriorityDiff (vals : ValidatorSet) : Int :=
  let max := vals.validators.foldl
    (fun m v => if m < v.proposerPriority then v.proposerPriority else m)
    minInt64
  let min := vals.validators.foldl
    (fun m v => if v.proposerPriority < m then v.proposerPriority else m)
    maxInt64
  let diff := wrap64 (max - min)
  if diff < 0 then wrap64 (-diff) else diff

/-- `computeAvgProposerPriority`; `big.Int.Div` rounds down here. -/
def computeAvgProposerPriority (vals : ValidatorSet) : Int :=
  (vals.validators.map Validator.proposerPriority).sum / vals.size

def withPriorities (vals : ValidatorSet) (f : Validator → Int) : ValidatorSet where
  validators := vals.validators.map fun v => { v with proposerPriority := f v }
  proposer := vals.proposer
  power_pos v hv := by
    obtain ⟨v', hv', rfl⟩ := List.mem_map.mp hv
    exact vals.power_pos v' hv'
  addresses_nodup := by
    rw [List.map_map]
    exact vals.addresses_nodup
  total_le := by
    rw [List.map_map]
    exact vals.total_le

def rescalePriorities (vals : ValidatorSet) (diffMax : Int) : ValidatorSet :=
  if diffMax ≤ 0 then vals
  else
    let diff := vals.computeMaxMinPriorityDiff
    let ratio := (wrap64 (diff + diffMax - 1)).tdiv diffMax
    if diffMax < diff then vals.withPriorities fun v => v.proposerPriority.tdiv ratio
    else vals

def shiftByAvgProposerPriority (vals : ValidatorSet) : ValidatorSet :=
  let avg := vals.computeAvgProposerPriority
  vals.withPriorities fun v => safeSubClip v.proposerPriority avg

def getValWithMostPriority (vals : ValidatorSet) : Option Validator :=
  vals.validators.foldl (fun res val => some (res.elim val (·.compareProposerPriority val))) none

/-- The private `incrementProposerPriority`: everyone gains their power,
and the one in front pays the total. -/
def incrementOnce (vals : ValidatorSet) : ValidatorSet × Option Validator :=
  let raised := vals.withPriorities fun v => safeAddClip v.proposerPriority v.votingPower
  match raised.getValWithMostPriority with
  | none => (raised, none)
  | some mostest =>
    let priority := safeSubClip mostest.proposerPriority vals.totalVotingPower
    (raised.withPriorities fun v =>
        if v.address = mostest.address then priority else v.proposerPriority,
      some { mostest with proposerPriority := priority })

def incrementTimes (vals : ValidatorSet) (proposer : Option Validator) : Nat → ValidatorSet
  | 0 => { vals with proposer := proposer }
  | n + 1 =>
    let (vals', mostest) := vals.incrementOnce
    vals'.incrementTimes mostest n

/-- `IncrementProposerPriority`; nothing on a panic. -/
def incrementProposerPriority (vals : ValidatorSet) (times : Int) : Option ValidatorSet :=
  if vals.validators = [] ∨ times ≤ 0 then none
  else
    let diffMax := priorityWindowSizeFactor * vals.totalVotingPower
    let vals := (vals.rescalePriorities diffMax).shiftByAvgProposerPriority
    some (vals.incrementTimes none times.toNat)

end ValidatorSet

end HetuEngine.Comet
