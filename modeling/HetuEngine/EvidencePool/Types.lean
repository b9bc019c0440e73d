/-
Evidence of misbehaviour (types/evidence.go of hetu-cometbft): two votes of
one validator for different blocks, or a light block that conflicts with the
chain.

# What is a parameter

The hash functions and the protobuf encoding of duplicate votes
(`Encoding`).
-/
import HetuEngine.Comet.Header
import HetuEngine.Comet.ValidatorUpdates

namespace HetuEngine.EvidencePool

open Comet

-- ==== duplicate votes

structure DuplicateVoteEvidence where
  voteA : Vote
  voteB : Vote
  totalVotingPower : Int
  validatorPower : Int
  timestamp : Time

/-- `NewDuplicateVoteEvidence`, nothing if the voter is not in the set. -/
def newDuplicateVoteEvidence (vote1 vote2 : Vote) (blockTime : Time)
    (valSet : ReceivedSet) : Option DuplicateVoteEvidence :=
  match valSet.getByAddress vote1.validatorAddress with
  | none => none
  | some (_, val) =>
    let (voteA, voteB) :=
      if vote1.blockID.key < vote2.blockID.key then (vote1, vote2)
      else (vote2, vote1)
    some ⟨voteA, voteB, valSet.totalVotingPower, val.votingPower, blockTime⟩

namespace DuplicateVoteEvidence

def height (dve : DuplicateVoteEvidence) : Int := dve.voteA.height

/-- `ValidateBasic`, without its error. -/
def validateBasic (dve : DuplicateVoteEvidence) : Bool :=
  dve.voteA.validateBasic && dve.voteB.validateBasic
    && dve.voteA.blockID.key < dve.voteB.blockID.key

end DuplicateVoteEvidence

-- ==== light client attacks

/-- `LightClientAttackEvidence`. The slice of validators may be nil, which
is not the same as empty. -/
structure LightClientAttackEvidence where
  conflictingBlock : LightBlock
  commonHeight : Int
  byzantineValidators : Option (List Validator)
  totalVotingPower : Int
  timestamp : Time

inductive AttackPanic where
  /-- The trusted commit has no slot of the index. -/
  | indexOutOfRange
  /-- `ValidatorsByVotingPower` looks at a validator that was not found. -/
  | nilValidator
  deriving DecidableEq

namespace LightClientAttackEvidence

def conflictingHeaderIsInvalid (l : LightClientAttackEvidence) (trustedHeader : Header) : Bool :=
  trustedHeader.validatorsHash ≠ l.conflictingBlock.header.validatorsHash
    || trustedHeader.nextValidatorsHash ≠ l.conflictingBlock.header.nextValidatorsHash
    || trustedHeader.consensusHash ≠ l.conflictingBlock.header.consensusHash
    || trustedHeader.appHash ≠ l.conflictingBlock.header.appHash
    || trustedHeader.lastResultsHash ≠ l.conflictingBlock.header.lastResultsHash

/-- The loop for lunatic attacks: the validators of the common set who are
named in a slot for the block. -/
def votedInCommon (commonVals : ReceivedSet) : List CommitSig → List Validator
  | [] => []
  | commitSig :: rest =>
    if commitSig.blockIDFlag ≠ .commit then votedInCommon commonVals rest
    else
      match commonVals.getByAddress commitSig.validatorAddress with
      | none => votedInCommon commonVals rest
      | some (_, val) => val :: votedInCommon commonVals rest

/-- The loop for equivocation: the validators who are named in those slots of
the conflicting commit that are for the block in both commits. A validator
that is not found is nil. -/
def votedTwice (vals : ReceivedSet) (trusted : List CommitSig) :
    List (CommitSig × Nat) → Except AttackPanic (List (Option Validator))
  | [] => .ok []
  | (sigA, i) :: rest =>
    if sigA.blockIDFlag ≠ .commit then votedTwice vals trusted rest
    else
      match trusted[i]? with
      | none => .error .indexOutOfRange
      | some sigB =>
        if sigB.blockIDFlag ≠ .commit then votedTwice vals trusted rest
        else
          match votedTwice vals trusted rest with
          | .error e => .error e
          | .ok found => .ok ((vals.getByAddress sigA.validatorAddress).map Prod.snd :: found)

/-- `sort.Sort` by voting power: it compares every validator with another
one, if there is one. -/
def sortByVotingPower (validators : List (Option Validator)) :
    Except AttackPanic (List (Option Validator)) :=
  if validators.length < 2 then .ok validators
  else if validators.any Option.isNone then .error .nilValidator
  else .ok (((validators.filterMap id).insertionSort byVotingPower).map some)

/-- `GetByzantineValidators`. The result is nil if it is empty. -/
def getByzantineValidators (l : LightClientAttackEvidence) (commonVals : ReceivedSet)
    (trusted : SignedHeader) : Except AttackPanic (List (Option Validator)) :=
  if l.conflictingHeaderIsInvalid trusted.header then
    .ok (((votedInCommon commonVals l.conflictingBlock.commit.signatures)
      |>.insertionSort byVotingPower).map some)
  else if trusted.commit.round = l.conflictingBlock.commit.round then
    match votedTwice l.conflictingBlock.validatorSet trusted.commit.signatures
        l.conflictingBlock.commit.signatures.zipIdx with
    | .error e => .error e
    | .ok validators => sortByVotingPower validators
  else .ok []

/-- `ValidateBasic`, without its error. -/
def validateBasic (c : Crypto) (hash : Header → Bytes)
    (valsHash : ReceivedSet → Bytes) (l : LightClientAttackEvidence) : Bool :=
  0 < l.totalVotingPower && 0 < l.commonHeight && l.commonHeight ≤ l.conflictingBlock.height
    && l.conflictingBlock.validateBasic c hash valsHash l.conflictingBlock.header.chainID

end LightClientAttackEvidence

-- ==== evidence

inductive Evidence where
  | duplicateVote (dve : DuplicateVoteEvidence)
  | lightClientAttack (l : LightClientAttackEvidence)

/-- The hash functions and encodings that evidence depends on. -/
structure Encoding where
  sum : Bytes → Bytes
  /-- `Header.Hash` -/
  header : Header → Bytes
  /-- `ValidatorSet.Hash` -/
  validators : ReceivedSet → Bytes
  /-- `DuplicateVoteEvidence.Bytes` -/
  duplicateVote : DuplicateVoteEvidence → Bytes

/-- What `LightClientAttackEvidence.Hash` copies of the header's hash: one
byte less than there is room for. -/
def copied (hash : Bytes) : Bytes :=
  let head := hash.take (tmhashSize - 1)
  head ++ List.replicate (tmhashSize - head.length) 0

structure Misbehavior where
  /-- `MisbehaviorType_LIGHT_CLIENT_ATTACK`, not `DUPLICATE_VOTE` -/
  lightClientAttack : Bool
  address : Bytes
  power : Int
  height : Int
  time : Time
  totalVotingPower : Int

namespace Evidence

def height : Evidence → Int
  | duplicateVote dve => dve.height
  | lightClientAttack l => l.commonHeight

def time : Evidence → Time
  | duplicateVote dve => dve.timestamp
  | lightClientAttack l => l.timestamp

def hashed (enc : Encoding) : Evidence → Bytes
  | duplicateVote dve => enc.duplicateVote dve
  | lightClientAttack l => copied (enc.header l.conflictingBlock.header) ++ putVarint l.commonHeight

def hash (enc : Encoding) (ev : Evidence) : Bytes := enc.sum (ev.hashed enc)

/-- `ValidateBasic`, without its error. -/
def validateBasic (c : Crypto) (enc : Encoding) : Evidence → Bool
  | duplicateVote dve => dve.validateBasic
  | lightClientAttack l => l.validateBasic c enc.header enc.validators

/-- `ABCI`. The address of a byzantine validator is that of its key. -/
def abci (c : Crypto) : Evidence → List Misbehavior
  | duplicateVote dve =>
    [⟨false, dve.voteA.validatorAddress, dve.validatorPower,
      dve.voteA.height, dve.timestamp, dve.totalVotingPower⟩]
  | lightClientAttack l =>
    (l.byzantineValidators.getD []).map fun val =>
      ⟨true, c.address val.pubKey, val.votingPower, l.commonHeight, l.timestamp, l.totalVotingPower⟩

end Evidence

end HetuEngine.EvidencePool
