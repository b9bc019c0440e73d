/-
Verification of evidence against the chain a full node has
(evidence/verify.go of hetu-cometbft).

The node's chain is what the verification reads: the last state, the block
store and the stored validator sets (`Node`).
-/
import HetuEngine.EvidencePool.Types

namespace HetuEngine.EvidencePool

open Comet

-- ==== the node

/-- `EvidenceParams`, without `MaxBytes`. -/
structure EvidenceParams where
  maxAgeNumBlocks : Int
  maxAgeDuration : Int

structure Stores where
  /-- `BlockStore.LoadBlockMeta`, the header of the meta -/
  loadBlockMeta : Int → Option Header
  loadBlockCommit : Int → Option Commit
  height : Int
  loadValidators : Int → Option ValidatorSet

/-- The last state of a node (`sm.State`), and what it has stored. -/
structure Node extends Stores where
  chainID : String
  lastBlockHeight : Int
  lastBlockTime : Time
  lastValidators : ValidatorSet
  params : EvidenceParams

inductive EvidenceError where
  /-- "don't have header #%d", "don't have header at height #%d" -/
  | noHeader (height : Int)
  /-- "don't have commit at height #%d" -/
  | noCommit (height : Int)
  /-- The error of `LoadValidators`. -/
  | noValidators (height : Int)
  /-- "evidence has a different time to the block it is associated with" -/
  | differentTime
  /-- "evidence from height %d (created at: %v) is too old" -/
  | tooOld
  /-- "latest block time (%v) is before conflicting block time (%v)" -/
  | latestBefore
  /-- "skipping verification of conflicting block failed" -/
  | skipping (err : TrustingError)
  /-- "common height is the same as conflicting block height so expected the
  conflicting block to be correctly derived yet it wasn't" -/
  | notDerived
  /-- "invalid commit from conflicting block" -/
  | invalidCommit (err : VerifyError)
  /-- "total voting power from the evidence and our validator set does not
  match" -/
  | totalVotingPower
  /-- "conflicting block doesn't violate monotonically increasing time" -/
  | monotonicTime
  /-- "trusted header hash matches the evidence's conflicting header hash" -/
  | sameHash
  /-- "expected nil validators from an amnesia light client attack" -/
  | expectedNil
  /-- "expected %d byzantine validators from evidence but got %d" -/
  | byzantineCount (expected got : Nat)
  /-- "evidence contained an unexpected byzantine validator address" -/
  | byzantineAddress
  /-- "evidence contained unexpected byzantine validator power" -/
  | byzantinePower
  /-- "address %X was not a validator at height %d" -/
  | notValidator
  /-- "h/r/s does not match" -/
  | heightRoundStep
  /-- "validator addresses do not match" -/
  | addresses
  /-- "block IDs are the same" -/
  | sameBlockID
  /-- "address (%X) doesn't match pubkey" -/
  | pubKey
  /-- "validator power from evidence and our validator set does not match" -/
  | validatorPower
  /-- "verifying VoteA" -/
  | voteA
  /-- "verifying VoteB" -/
  | voteB
  /-- A panic. -/
  | panic (p : AttackPanic)
  deriving DecidableEq

def EvidenceError.isPanic : EvidenceError → Bool
  | .panic _ => true
  | .skipping (.verify err) => err.isPanic
  | .invalidCommit err => err.isPanic
  | _ => false

def Node.getSignedHeader (node : Node) (height : Int) : Except EvidenceError SignedHeader :=
  match node.loadBlockMeta height with
  | none => .error (.noHeader height)
  | some header =>
    match node.loadBlockCommit height with
    | none => .error (.noCommit height)
    | some commit => .ok ⟨header, commit⟩

def isEvidenceExpired (heightNow : Int) (timeNow : Time) (heightEv : Int)
    (timeEv : Time) (params : EvidenceParams) : Bool :=
  params.maxAgeDuration < timeNow - timeEv && params.maxAgeNumBlocks < heightNow - heightEv

-- ==== duplicate votes

def verifyDuplicateVote (c : Crypto) (e : DuplicateVoteEvidence)
    (chainID : String) (valSet : ReceivedSet) : Except EvidenceError Unit :=
  match valSet.getByAddress e.voteA.validatorAddress with
  | none => .error .notValidator
  | some (_, val) =>
    if e.voteA.height ≠ e.voteB.height ∨ e.voteA.round ≠ e.voteB.round
        ∨ e.voteA.type ≠ e.voteB.type then .error .heightRoundStep
    else if e.voteA.validatorAddress ≠ e.voteB.validatorAddress then .error .addresses
    else if e.voteA.blockID = e.voteB.blockID then .error .sameBlockID
    else if c.address val.pubKey ≠ e.voteA.validatorAddress then .error .pubKey
    else if val.votingPower ≠ e.validatorPower then .error .validatorPower
    else if valSet.totalVotingPower ≠ e.totalVotingPower then .error .totalVotingPower
    else if !c.signed chainID val.pubKey e.voteA then .error .voteA
    else if !c.signed chainID val.pubKey e.voteB then .error .voteB
    else .ok ()

-- ==== light client attacks

def defaultTrustLevel : Fraction := .third

/-- The loop of `validateABCIEvidence` over the validators found and those
listed, of which there are as many. -/
def compareValidators : List (Option Validator) → List Validator → Except EvidenceError Unit
  | none :: _, _ :: _ => .error (.panic .nilValidator)
  | some val :: validators, listed :: rest =>
    if listed.address ≠ val.address then .error .byzantineAddress
    else if listed.votingPower ≠ val.votingPower then .error .byzantinePower
    else compareValidators validators rest
  | _, _ => .ok ()

def validateABCIEvidence (ev : LightClientAttackEvidence)
    (commonVals : ReceivedSet) (trustedHeader : SignedHeader) : Except EvidenceError Unit :=
  if ev.totalVotingPower ≠ commonVals.totalVotingPower then .error .totalVotingPower
  else
    match ev.getByzantineValidators commonVals trustedHeader with
    | .error p => .error (.panic p)
    | .ok validators =>
      let listed := ev.byzantineValidators.getD []
      if validators = [] ∧ ev.byzantineValidators ≠ none then .error .expectedNil
      else if validators.length ≠ listed.length then
        .error (.byzantineCount validators.length listed.length)
      else compareValidators validators listed

/-- What `VerifyLightClientAttack` checks first: that the conflicting block
is signed as it must be. -/
def verifyConflictingBlock (c : Verifier) (e : LightClientAttackEvidence)
    (commonHeader trustedHeader : SignedHeader) (commonVals : ReceivedSet) :
    Except EvidenceError Unit :=
  let chainID := trustedHeader.header.chainID
  let block := e.conflictingBlock
  let jump : Except EvidenceError Unit :=
    if commonHeader.header.height ≠ block.height then
      match verifyCommitLightTrustingAllSignatures c chainID commonVals
          block.commit defaultTrustLevel with
      | .error err => .error (.skipping err)
      | .ok () => .ok ()
    else if e.conflictingHeaderIsInvalid trustedHeader.header then .error .notDerived
    else .ok ()
  match jump with
  | .error err => .error err
  | .ok () =>
    match verifyCommitLightAllSignatures c chainID block.validatorSet
        block.commit.blockID block.height block.commit with
    | .error err => .error (.invalidCommit err)
    | .ok () => .ok ()

/-- What `VerifyLightClientAttack` checks before the validators that the
evidence lists. -/
def verifyAttack (c : Verifier) (enc : Encoding) (e : LightClientAttackEvidence)
    (commonHeader trustedHeader : SignedHeader) (commonVals : ReceivedSet) :
    Except EvidenceError Unit :=
  let block := e.conflictingBlock
  match verifyConflictingBlock c e commonHeader trustedHeader commonVals with
  | .error err => .error err
  | .ok () =>
    if e.totalVotingPower ≠ commonVals.totalVotingPower then .error .totalVotingPower
    else if trustedHeader.header.height < block.height ∧ trustedHeader.header.time < block.time then
      .error .monotonicTime
    else if enc.header trustedHeader.header = enc.header block.header then .error .sameHash
    else .ok ()

def verifyLightClientAttack (c : Verifier) (enc : Encoding) (e : LightClientAttackEvidence)
    (commonHeader trustedHeader : SignedHeader) (commonVals : ReceivedSet) :
    Except EvidenceError Unit :=
  match verifyAttack c enc e commonHeader trustedHeader commonVals with
  | .error err => .error err
  | .ok () => validateABCIEvidence e commonVals trustedHeader

/-- The header that `verify` compares the conflicting block with: that of its
height, or the latest one if the node has none. -/
def Node.trustedHeader (node : Node) (commonHeader : SignedHeader)
    (l : LightClientAttackEvidence) : Except EvidenceError SignedHeader :=
  if l.commonHeight = l.conflictingBlock.height then .ok commonHeader
  else
    match node.getSignedHeader l.conflictingBlock.height with
    | .ok header => .ok header
    | .error _ =>
      match node.getSignedHeader node.height with
      | .error e => .error e
      | .ok latest =>
        if latest.header.time < l.conflictingBlock.time then .error .latestBefore
        else .ok latest

def Node.verifyKind (c : Verifier) (enc : Encoding) (node : Node) :
    Evidence → Except EvidenceError Unit
  | .duplicateVote dve =>
    match node.loadValidators dve.height with
    | none => .error (.noValidators dve.height)
    | some valSet => verifyDuplicateVote c.toCrypto dve node.chainID valSet
  | .lightClientAttack l =>
    match node.getSignedHeader l.commonHeight with
    | .error e => .error e
    | .ok commonHeader =>
      match node.loadValidators l.commonHeight with
      | none => .error (.noValidators l.commonHeight)
      | some commonVals =>
        match node.trustedHeader commonHeader l with
        | .error e => .error e
        | .ok trustedHeader => verifyLightClientAttack c enc l commonHeader trustedHeader commonVals

def Node.verify (c : Verifier) (enc : Encoding) (node : Node)
    (ev : Evidence) : Except EvidenceError Unit :=
  match node.loadBlockMeta ev.height with
  | none => .error (.noHeader ev.height)
  | some header =>
    if ev.time ≠ header.time then .error .differentTime
    else if isEvidenceExpired node.lastBlockHeight node.lastBlockTime
        ev.height header.time node.params then .error .tooOld
    else node.verifyKind c enc ev

end HetuEngine.EvidencePool
