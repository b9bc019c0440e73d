/-
Votes and the sets that collect them (types/vote.go, types/vote_set.go,
consensus/types/height_vote_set.go of hetu-cometbft).

A `VoteSet` collects the votes of one height, round and type. A validator's
first vote counts; a conflicting one is tracked only for a block that some
peer claims to have a majority. The first block id that reaches +2/3 stays
the majority. A `HeightVoteSet` keeps the two vote sets of every round up to
the current one, and those of at most two more rounds for each peer. The
signature scheme and the bytes that are signed are parameters (`Crypto`).
-/
import HetuEngine.Comet.ValidatorSet
import HetuEngine.Lib.Assoc

namespace HetuEngine.Comet

open Lib

-- ==== votes

abbrev Time := Int

abbrev PeerID := String

inductive SignedMsgType where
  | unknown
  | prevote
  | precommit
  | proposal
  deriving DecidableEq

def SignedMsgType.isVoteTypeValid : SignedMsgType → Bool
  | .prevote | .precommit => true
  | .unknown | .proposal => false

def addressSize : Nat := 20

def maxSignatureSize : Nat := 64

structure Vote where
  type : SignedMsgType
  height : Int
  round : Int
  blockID : BlockID
  timestamp : Time
  validatorAddress : Bytes
  validatorIndex : Int
  signature : Bytes
  extension : Bytes
  extensionSignature : Bytes
  deriving DecidableEq

/-- The id of no block, or of a block with its parts. -/
def BlockID.wellFormed (id : BlockID) : Bool := id.isZero || id.isComplete

/-- `Vote.ValidateBasic`, without its error. -/
def Vote.validateBasic (vote : Vote) : Bool :=
  vote.type.isVoteTypeValid && 0 < vote.height && 0 ≤ vote.round
    && vote.blockID.validateBasic && vote.blockID.wellFormed
    && vote.validatorAddress.length = addressSize
    && 0 ≤ vote.validatorIndex
    && vote.signature.length ≠ 0
    && vote.signature.length ≤ maxSignatureSize
    && (if vote.type ≠ .precommit || vote.blockID.isZero then
          vote.extension.length = 0 && vote.extensionSignature.length = 0
        else
          vote.extensionSignature.length ≤ maxSignatureSize
            && !(vote.extensionSignature.length = 0 && vote.extension.length ≠ 0))

structure Crypto where
  address : Bytes → Bytes
  /-- `PubKey.VerifySignature(msg, sig)` -/
  verifySignature : (pubKey msg sig : Bytes) → Bool
  voteSignBytes : String → Vote → Bytes
  voteExtensionSignBytes : String → Vote → Bytes

inductive VoteError where
  | invalidValidatorIndex
  | invalidValidatorAddress
  | unexpectedStep
  | nonDeterministicSignature
  | invalidSignature
  /-- "expected vote extension signature" -/
  | missingExtensionSignature
  /-- "unexpected vote extension data present in vote" -/
  | unexpectedExtension
  | conflictingVotes (voteA voteB : Vote)
  | gotVoteFromUnwantedRound
  /-- `ErrInvalidVote`: "ValidatorIndex %d is out of bounds [0, %d)" -/
  | indexOutOfBounds (index : Int) (size : Nat)
  /-- The application rejects the extension: `ErrInvalidVoteExtension`. -/
  | invalidVoteExtension
  /-- "received vote with vote extension for height %v (extensions
  disabled) from peer ID %s" -/
  | extensionsDisabled (height : Int) (peerID : PeerID)
  /-- The error of the event bus. -/
  | publish
  deriving DecidableEq

inductive VotePanic where
  /-- "addVerifiedVote does not expect duplicate votes" -/
  | duplicateVote
  /-- "Expected to add non-conflicting vote" -/
  | notAdded
  /-- "AddVote() on nil VoteSet" -/
  | nilVoteSet
  /-- "extensions enabled general param does not match the one in
  HeightVoteSet %t!=%t" -/
  | extensionsMismatch (set given : Bool)
  /-- "SetRound() must increment hvs.round" -/
  | setRound
  deriving DecidableEq

namespace Crypto

variable (c : Crypto) (chainID : String) (pubKey : Bytes) (vote : Vote)

def signed : Bool := c.verifySignature pubKey (c.voteSignBytes chainID vote) vote.signature

def verify : Except VoteError Unit :=
  if c.address pubKey ≠ vote.validatorAddress then .error .invalidValidatorAddress
  else if !c.signed chainID pubKey vote then .error .invalidSignature
  else .ok ()

def extensionSigned : Bool :=
  c.verifySignature pubKey (c.voteExtensionSignBytes chainID vote) vote.extensionSignature

def verifyVoteAndExtension : Except VoteError Unit := do
  c.verify chainID pubKey vote
  if vote.type ≠ .precommit || vote.blockID.isZero then .ok ()
  else if vote.extensionSignature.length = 0 then .error .missingExtensionSignature
  else if !c.extensionSigned chainID pubKey vote then .error .invalidSignature
  else .ok ()

def verifyExtension : Except VoteError Unit :=
  if vote.type ≠ .precommit || vote.blockID.isZero then .ok ()
  else if !c.extensionSigned chainID pubKey vote then .error .invalidSignature
  else .ok ()

end Crypto

-- ==== keys of block ids

/-- A base-128 varint; `fuel` bounds the number of further bytes. -/
def varint : (fuel n : Nat) → Bytes
  | 0, n => [UInt8.ofNat n]
  | fuel + 1, n =>
    if n < 128 then [UInt8.ofNat n]
    else UInt8.ofNat (n % 128 + 128) :: varint fuel (n / 128)

def encodeVarint (n : Nat) : Bytes := varint n n

/-- The protobuf encoding of a part set header: zero values are left out. -/
def PartSetHeader.marshal (psh : PartSetHeader) : Bytes :=
  (if psh.total ≠ 0 then 0x08 :: encodeVarint psh.total else []) ++ (if psh.hash.length ≠ 0 then
          0x12 :: (encodeVarint psh.hash.length ++ psh.hash)
        else [])

def BlockID.key (id : BlockID) : Bytes := id.hash ++ id.partSetHeader.marshal

-- ==== vote set

/-- `blockVotes`: the votes for one block id. -/
structure BlockVotes where
  peerMaj23 : Bool
  bitArray : List Bool
  votes : List (Option Vote)
  sum : Int

namespace BlockVotes

def new (peerMaj23 : Bool) (numValidators : Nat) : BlockVotes where
  peerMaj23 := peerMaj23
  bitArray := List.replicate numValidators false
  votes := List.replicate numValidators none
  sum := 0

def getByIndex (bv : BlockVotes) (index : Nat) : Option Vote := bv.votes.getD index none

def addVerifiedVote (bv : BlockVotes) (vote : Vote) (votingPower : Int) :
    BlockVotes :=
  match bv.getByIndex vote.validatorIndex.toNat with
  | some _ => bv
  | none =>
    { bv with
      bitArray := bv.bitArray.set vote.validatorIndex.toNat true
      votes := bv.votes.set vote.validatorIndex.toNat (some vote)
      sum := bv.sum + votingPower }

end BlockVotes

structure VoteSet where
  chainID : String
  height : Int
  round : Int
  signedMsgType : SignedMsgType
  valSet : ValidatorSet
  extensionsEnabled : Bool
  votesBitArray : List Bool
  votes : List (Option Vote)
  sum : Int
  maj23 : Option BlockID
  votesByBlock : HashMap Bytes BlockVotes
  peerMaj23s : HashMap PeerID BlockID

namespace VoteSet

def new (chainID : String) (height round : Int) (type : SignedMsgType)
    (valSet : ValidatorSet) (extensionsEnabled : Bool) : VoteSet where
  chainID := chainID
  height := height
  round := round
  signedMsgType := type
  valSet := valSet
  extensionsEnabled := extensionsEnabled
  votesBitArray := List.replicate valSet.size false
  votes := List.replicate valSet.size none
  sum := 0
  maj23 := none
  votesByBlock := ∅
  peerMaj23s := ∅

def getVote (vs : VoteSet) (index : Nat) (blockKey : Bytes) : Option Vote :=
  match vs.votes.getD index none with
  | some existing =>
    if existing.blockID.key = blockKey then some existing
    else (vs.votesByBlock.lookup blockKey).bind (·.getByIndex index)
  | none => (vs.votesByBlock.lookup blockKey).bind (·.getByIndex index)

/-- The checks of `addVote`, up to the signature: the validator who cast
the vote, an error, or no error for a duplicate. -/
def checkVote (c : Crypto) (vs : VoteSet) (vote : Vote) : Except (Option VoteError) Validator :=
  if vote.validatorIndex < 0 then .error (some .invalidValidatorIndex)
  else if vote.validatorAddress.length = 0 then .error (some .invalidValidatorAddress)
  else if vote.height ≠ vs.height || vote.round ≠ vs.round
      || vote.type ≠ vs.signedMsgType then
    .error (some .unexpectedStep)
  else
    match vs.valSet.getByIndex vote.validatorIndex with
    | none => .error (some .invalidValidatorIndex)
    | some val =>
      if vote.validatorAddress ≠ val.address then .error (some .invalidValidatorAddress)
      else
        match vs.getVote vote.validatorIndex.toNat vote.blockID.key with
        | some existing =>
          if existing.signature = vote.signature then .error none
          else .error (some .nonDeterministicSignature)
        | none =>
          if vs.extensionsEnabled then
            match c.verifyVoteAndExtension vs.chainID val.pubKey vote with
            | .error e => .error (some e)
            | .ok () => .ok val
          else
            match c.verify vs.chainID val.pubKey vote with
            | .error e => .error (some e)
            | .ok () =>
              if 0 < vote.extensionSignature.length
                  || 0 < vote.extension.length then
                .error (some .unexpectedExtension)
              else .ok val

/-- The first part of `addVerifiedVote`: put the vote among the canonical
votes, and return the one it conflicts with. -/
def place (vs : VoteSet) (vote : Vote) (blockKey : Bytes)
    (votingPower : Int) : Except VotePanic (VoteSet × Option Vote) :=
  match vs.votes.getD vote.validatorIndex.toNat none with
  | some existing =>
    if existing.blockID = vote.blockID then .error .duplicateVote
    -- replace the vote if it is for the majority
    else if vs.maj23.any fun maj23 => maj23.key = blockKey then
      .ok ({ vs with
        votes := vs.votes.set vote.validatorIndex.toNat (some vote)
        votesBitArray := vs.votesBitArray.set vote.validatorIndex.toNat true },
        some existing)
    else .ok (vs, some existing)
  | none =>
    .ok ({ vs with
      votes := vs.votes.set vote.validatorIndex.toNat (some vote)
      votesBitArray := vs.votesBitArray.set vote.validatorIndex.toNat true
      sum := vs.sum + votingPower }, none)

/-- The votes for the block to which a vote is added, unless it conflicts
and no peer claims that the block is special. -/
def tracked (vs : VoteSet) (blockKey : Bytes) (conflicting : Option Vote) : Option BlockVotes :=
  match vs.votesByBlock.lookup blockKey with
  | some bv => if conflicting.isSome && !bv.peerMaj23 then none else some bv
  | none =>
    if conflicting.isSome then none
    else some (BlockVotes.new false vs.valSet.size)

def quorum (vs : VoteSet) : Int := vs.valSet.totalVotingPower * 2 / 3 + 1

/-- The last part of `addVerifiedVote`: add the vote to those for its block,
and take note if this is the first majority. -/
def record (vs : VoteSet) (vote : Vote) (blockKey : Bytes)
    (votingPower : Int) (bv : BlockVotes) : VoteSet :=
  let bv' := bv.addVerifiedVote vote votingPower
  let vs' := { vs with votesByBlock := vs.votesByBlock.insert blockKey bv' }
  if bv.sum < vs.quorum ∧ vs.quorum ≤ bv'.sum ∧ vs.maj23 = none then
    { vs' with
      maj23 := some vote.blockID
      votes := List.zipWith (fun new old => new <|> old) bv'.votes vs.votes }
  else vs'

def addVerifiedVote (vs : VoteSet) (vote : Vote) (blockKey : Bytes)
    (votingPower : Int) : Except VotePanic (VoteSet × Bool × Option Vote) :=
  match vs.place vote blockKey votingPower with
  | .error e => .error e
  | .ok (vs', conflicting) =>
    match vs'.tracked blockKey conflicting with
    | none => .ok (vs', false, conflicting)
    | some bv => .ok (vs'.record vote blockKey votingPower bv, true, conflicting)

/-- `addVote`: the new set, whether the vote was added, and the error. -/
def addVote (c : Crypto) (vs : VoteSet) (vote : Vote) :
    Except VotePanic (VoteSet × Bool × Option VoteError) :=
  match vs.checkVote c vote with
  | .error e => .ok (vs, false, e)
  | .ok val =>
    match vs.addVerifiedVote vote vote.blockID.key val.votingPower with
    | .error e => .error e
    | .ok (vs', added, some existing) => .ok (vs', added, some (.conflictingVotes existing vote))
    | .ok (vs', added, none) => if added then .ok (vs', added, none) else .error .notAdded

/-- `SetPeerMaj23`; a second claim of a peer changes nothing. -/
def setPeerMaj23 (vs : VoteSet) (peerID : PeerID) (blockID : BlockID) :
    VoteSet :=
  match vs.peerMaj23s.lookup peerID with
  | some _ => vs
  | none =>
    let bv :=
      match vs.votesByBlock.lookup blockID.key with
      | some bv => { bv with peerMaj23 := true }
      | none => BlockVotes.new true vs.valSet.size
    { vs with
      peerMaj23s := vs.peerMaj23s.insert peerID blockID
      votesByBlock := vs.votesByBlock.insert blockID.key bv }

-- The readers, which also accept a nil vote set.

def twoThirdsMajority (vs : Option VoteSet) : Option BlockID := vs.bind VoteSet.maj23

def hasTwoThirdsAny : Option VoteSet → Bool
  | none => false
  | some vs => vs.valSet.totalVotingPower * 2 / 3 < vs.sum

def hasAll : Option VoteSet → Bool
  | none => false
  | some vs => vs.sum = vs.valSet.totalVotingPower

end VoteSet

-- ==== height vote set

structure RoundVoteSet where
  prevotes : VoteSet
  precommits : VoteSet

structure HeightVoteSet where
  chainID : String
  height : Int
  valSet : ValidatorSet
  extensionsEnabled : Bool
  round : Int
  roundVoteSets : HashMap Int RoundVoteSet
  peerCatchupRounds : HashMap PeerID (List Int)

namespace HeightVoteSet

def newRound (hvs : HeightVoteSet) (round : Int) : RoundVoteSet where
  prevotes := VoteSet.new hvs.chainID hvs.height round .prevote hvs.valSet false
  precommits := VoteSet.new hvs.chainID hvs.height round .precommit hvs.valSet hvs.extensionsEnabled

/-- `addRound`. Its callers make sure that the round does not exist. -/
def addRound (hvs : HeightVoteSet) (round : Int) : HeightVoteSet :=
  { hvs with roundVoteSets := hvs.roundVoteSets.insert round (hvs.newRound round) }

/-- `NewHeightVoteSet` and `NewExtendedHeightVoteSet`. -/
def new (chainID : String) (height : Int) (valSet : ValidatorSet)
    (extensionsEnabled : Bool) : HeightVoteSet :=
  addRound
    { chainID := chainID
      height := height
      valSet := valSet
      extensionsEnabled := extensionsEnabled
      round := 0
      roundVoteSets := ∅
      peerCatchupRounds := ∅ }
    0

/-- The loop of `SetRound`: `n` rounds from `r` on. -/
def ensureRounds (hvs : HeightVoteSet) (r : Int) : Nat → HeightVoteSet
  | 0 => hvs
  | n + 1 =>
    let hvs' :=
      match hvs.roundVoteSets.lookup r with
      | some _ => hvs
      | none => hvs.addRound r
    hvs'.ensureRounds (r + 1) n

def setRound (hvs : HeightVoteSet) (round : Int) : Except VotePanic HeightVoteSet :=
  let newRound := hvs.round - 1
  if hvs.round ≠ 0 ∧ round < newRound then .error .setRound
  else .ok { hvs.ensureRounds newRound (round - newRound + 1).toNat with round := round }

def getVoteSet (hvs : HeightVoteSet) (round : Int) (type : SignedMsgType) : Option VoteSet :=
  match hvs.roundVoteSets.lookup round with
  | none => none
  | some rvs =>
    match type with
    | .prevote => some rvs.prevotes
    | .precommit => some rvs.precommits
    | .unknown | .proposal => none

def prevotes (hvs : HeightVoteSet) (round : Int) : Option VoteSet := hvs.getVoteSet round .prevote

def precommits (hvs : HeightVoteSet) (round : Int) : Option VoteSet :=
  hvs.getVoteSet round .precommit

def setVoteSet (hvs : HeightVoteSet) (round : Int) (type : SignedMsgType)
    (vs : VoteSet) : HeightVoteSet :=
  match hvs.roundVoteSets.lookup round with
  | none => hvs
  | some rvs =>
    let rvs' :=
      match type with
      | .prevote => { rvs with prevotes := vs }
      | .precommit => { rvs with precommits := vs }
      | .unknown | .proposal => rvs
    { hvs with roundVoteSets := hvs.roundVoteSets.insert round rvs' }

/-- The part of `AddVote` before the vote is added: a round that does not
exist is added, if the peer has not yet had two. -/
def catchup (hvs : HeightVoteSet) (vote : Vote) (peerID : PeerID) : Option HeightVoteSet :=
  match hvs.roundVoteSets.lookup vote.round with
  | some _ => some hvs
  | none =>
    let rounds := (hvs.peerCatchupRounds.lookup peerID).getD []
    if rounds.length < 2 then
      some { hvs.addRound vote.round with
        peerCatchupRounds := hvs.peerCatchupRounds.insert peerID (rounds ++ [vote.round]) }
    else none

def addVote (c : Crypto) (hvs : HeightVoteSet) (vote : Vote) (peerID : PeerID) (extEnabled : Bool) :
    Except VotePanic (HeightVoteSet × Bool × Option VoteError) :=
  if hvs.extensionsEnabled ≠ extEnabled then
    .error (.extensionsMismatch hvs.extensionsEnabled extEnabled)
  else if !vote.type.isVoteTypeValid then .ok (hvs, false, none)
  else
    match hvs.catchup vote peerID with
    | none => .ok (hvs, false, some .gotVoteFromUnwantedRound)
    | some hvs' =>
      match hvs'.getVoteSet vote.round vote.type with
      | none => .error .nilVoteSet
      | some vs =>
        match vs.addVote c vote with
        | .error e => .error e
        | .ok (vs', added, e) => .ok (hvs'.setVoteSet vote.round vote.type vs', added, e)

def setPeerMaj23 (hvs : HeightVoteSet) (round : Int) (type : SignedMsgType)
    (peerID : PeerID) (blockID : BlockID) : HeightVoteSet :=
  match hvs.getVoteSet round type with
  | none => hvs
  | some vs => hvs.setVoteSet round type (vs.setPeerMaj23 peerID blockID)

/-- The loop of `POLInfo`, over the rounds below `n`. -/
def polBelow (hvs : HeightVoteSet) : Nat → Int × BlockID
  | 0 => (-1, BlockID.zero)
  | n + 1 =>
    match VoteSet.twoThirdsMajority (hvs.prevotes n) with
    | some polBlockID => (n, polBlockID)
    | none => hvs.polBelow n

def polInfo (hvs : HeightVoteSet) : Int × BlockID := hvs.polBelow (hvs.round + 1).toNat

end HeightVoteSet

end HetuEngine.Comet
