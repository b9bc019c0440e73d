/-
Commits and their verification (types/block.go, types/vote.go,
types/vote_set.go, types/validation.go of hetu-cometbft).

A commit has one slot for each validator: absent, for the block, or for nil.
It is made from a vote set that has a majority (`makeExtendedCommit`,
`toCommit`), can be turned back into one (`toVoteSet`), and is verified
against the validators, slot by slot and by index, or by address where the
set may be another one (`verifyCommitBatch`, `verifyCommitSingle`).

Batch verification, offered for some types of keys, is a parameter
(`Verifier`).
-/
import HetuEngine.Comet.VoteSet

namespace HetuEngine.Comet

open Lib

-- ==== signatures

/-- `time.Time{}`: the first of January of the year 1. -/
def zeroTime : Time := -62135596800 * 10 ^ 9

inductive BlockIDFlag where
  | absent
  | commit
  | nil
  /-- any other byte -/
  | unknown (flag : UInt8)
  deriving DecidableEq

structure CommitSig where
  blockIDFlag : BlockIDFlag
  validatorAddress : Bytes
  timestamp : Time
  signature : Bytes
  deriving DecidableEq

structure ExtendedCommitSig extends CommitSig where
  extension : Bytes
  extensionSignature : Bytes
  deriving DecidableEq

structure Commit where
  height : Int
  round : Int
  blockID : BlockID
  signatures : List CommitSig

structure ExtendedCommit where
  height : Int
  round : Int
  blockID : BlockID
  extendedSignatures : List ExtendedCommitSig
  deriving DecidableEq

inductive ExtensionError where
  /-- "vote extension signature is missing" -/
  | signatureMissing
  /-- "non-commit vote extension present" -/
  | nonCommitExtension
  /-- "non-commit vote extension signature present" -/
  | nonCommitSignature
  /-- "vote extension present but extensions disabled" -/
  | extensionDisabled
  /-- "vote extension signature present but extensions disabled" -/
  | signatureDisabled
  deriving DecidableEq

inductive CommitPanic where
  /-- "Cannot MakeExtendCommit() unless VoteSet.Type is PrecommitType" -/
  | notPrecommits
  /-- "Cannot MakeExtendCommit() unless a blockhash has +2/3" -/
  | noMajority
  /-- "Invalid vote %v - expected BlockID to be either empty or complete" -/
  | invalidVote (vote : Vote)
  /-- "problem with vote extension data when making extended commit of
  height %d; %w" -/
  | extensions (height : Int) (e : ExtensionError)
  /-- "cannot check if vote extensions enabled for height %d (< 1)" -/
  | extensionsHeight (height : Int)
  /-- "Unknown BlockIDFlag: %v" -/
  | unknownBlockIDFlag (flag : UInt8)
  /-- `GetVote` of an index that the commit does not have -/
  | indexOutOfRange
  /-- "failed to validate vote reconstructed from commit: %w" -/
  | invalidReconstructed
  /-- "failed to reconstruct vote set from commit: %w" -/
  | notReconstructed (e : Option VoteError)
  /-- A panic of the vote set. -/
  | votes (p : VotePanic)
  deriving DecidableEq

def newCommitSigAbsent : CommitSig where
  blockIDFlag := .absent
  validatorAddress := []
  timestamp := zeroTime
  signature := []

def newExtendedCommitSigAbsent : ExtendedCommitSig where
  toCommitSig := newCommitSigAbsent
  extension := []
  extensionSignature := []

namespace CommitSig

def blockID (cs : CommitSig) (commitBlockID : BlockID) : Except CommitPanic BlockID :=
  match cs.blockIDFlag with
  | .absent => .ok BlockID.zero
  | .commit => .ok commitBlockID
  | .nil => .ok BlockID.zero
  | .unknown flag => .error (.unknownBlockIDFlag flag)

/-- `CommitSig.ValidateBasic`, without its error. -/
def validateBasic (cs : CommitSig) : Bool :=
  match cs.blockIDFlag with
  | .unknown _ => false
  | .absent => cs.validatorAddress.length = 0 && cs.timestamp = zeroTime && cs.signature.length = 0
  | .commit | .nil =>
    cs.validatorAddress.length = addressSize && cs.signature.length ≠ 0
      && cs.signature.length ≤ maxSignatureSize

end CommitSig

def ExtendedCommitSig.ensureExtension (ecs : ExtendedCommitSig)
    (extEnabled : Bool) : Except ExtensionError Unit :=
  if extEnabled then
    if ecs.blockIDFlag = .commit ∧ ecs.extensionSignature.length = 0 then .error .signatureMissing
    else if ecs.blockIDFlag ≠ .commit ∧ ecs.extension.length ≠ 0 then .error .nonCommitExtension
    else if ecs.blockIDFlag ≠ .commit ∧ ecs.extensionSignature.length ≠ 0 then
      .error .nonCommitSignature
    else .ok ()
  else
    if ecs.extension.length ≠ 0 then .error .extensionDisabled
    else if ecs.extensionSignature.length ≠ 0 then .error .signatureDisabled
    else .ok ()

/-- `Vote.CommitSig`, of a vote that may be nil. -/
def commitSigOf : Option Vote → Except CommitPanic CommitSig
  | none => .ok newCommitSigAbsent
  | some vote =>
    let sig (flag : BlockIDFlag) : CommitSig :=
      ⟨flag, vote.validatorAddress, vote.timestamp, vote.signature⟩
    if vote.blockID.isComplete then .ok (sig .commit)
    else if vote.blockID.isZero then .ok (sig .nil)
    else .error (.invalidVote vote)

def extendedCommitSigOf : Option Vote → Except CommitPanic ExtendedCommitSig
  | none => .ok newExtendedCommitSigAbsent
  | some vote =>
    match commitSigOf (some vote) with
    | .error e => .error e
    | .ok sig => .ok ⟨sig, vote.extension, vote.extensionSignature⟩

-- ==== from votes to a commit

structure ABCIParams where
  voteExtensionsEnableHeight : Int

def ABCIParams.voteExtensionsEnabled (ap : ABCIParams) (h : Int) : Except CommitPanic Bool :=
  if h < 1 then .error (.extensionsHeight h)
  else if ap.voteExtensionsEnableHeight = 0 then .ok false
  else .ok (ap.voteExtensionsEnableHeight ≤ h)

namespace ExtendedCommit

def ensureExtensions (extEnabled : Bool) : List ExtendedCommitSig → Except ExtensionError Unit
  | [] => .ok ()
  | ecs :: rest =>
    match ecs.ensureExtension extEnabled with
    | .error e => .error e
    | .ok () => ensureExtensions extEnabled rest

def toCommit (ec : ExtendedCommit) : Commit where
  height := ec.height
  round := ec.round
  blockID := ec.blockID
  signatures := ec.extendedSignatures.map (·.toCommitSig)

end ExtendedCommit

namespace VoteSet

/-- The slot that `MakeExtendedCommit` fills for a validator: a vote for
another block than the majority's counts as absent. -/
def commitSlot (maj23 : BlockID) (v : Option Vote) : Except CommitPanic ExtendedCommitSig :=
  match extendedCommitSigOf v with
  | .error e => .error e
  | .ok sig =>
    if sig.blockIDFlag = .commit ∧ v.any (fun v => v.blockID ≠ maj23) then
      .ok newExtendedCommitSigAbsent
    else .ok sig

/-- The loop of `MakeExtendedCommit`. -/
def commitSlots (maj23 : BlockID) : List (Option Vote) → Except CommitPanic (List ExtendedCommitSig)
  | [] => .ok []
  | v :: votes =>
    match commitSlot maj23 v with
    | .error e => .error e
    | .ok sig =>
      match commitSlots maj23 votes with
      | .error e => .error e
      | .ok sigs => .ok (sig :: sigs)

def makeExtendedCommit (vs : VoteSet) (ap : ABCIParams) : Except CommitPanic ExtendedCommit :=
  if vs.signedMsgType ≠ .precommit then .error .notPrecommits
  else
    match vs.maj23 with
    | none => .error .noMajority
    | some maj23 =>
      match commitSlots maj23 vs.votes with
      | .error e => .error e
      | .ok sigs =>
        match ap.voteExtensionsEnabled vs.height with
        | .error e => .error e
        | .ok extEnabled =>
          match ExtendedCommit.ensureExtensions extEnabled sigs with
          | .error e => .error (.extensions vs.height e)
          | .ok () => .ok ⟨vs.height, vs.round, maj23, sigs⟩

end VoteSet

-- ==== from a commit to votes

namespace Commit

def getVote (commit : Commit) (valIdx : Nat) : Except CommitPanic Vote :=
  match commit.signatures[valIdx]? with
  | none => .error .indexOutOfRange
  | some commitSig =>
    match commitSig.blockID commit.blockID with
    | .error e => .error e
    | .ok blockID =>
      .ok {
        type := .precommit
        height := commit.height
        round := commit.round
        blockID := blockID
        timestamp := commitSig.timestamp
        validatorAddress := commitSig.validatorAddress
        validatorIndex := valIdx
        signature := commitSig.signature
        extension := []
        extensionSignature := [] }

def voteSignBytes (c : Crypto) (chainID : String) (commit : Commit)
    (valIdx : Nat) : Except CommitPanic Bytes :=
  match commit.getVote valIdx with
  | .error e => .error e
  | .ok vote => .ok (c.voteSignBytes chainID vote)

/-- `Commit.ValidateBasic`, without its error. -/
def validateBasic (commit : Commit) : Bool :=
  0 ≤ commit.height && 0 ≤ commit.round && (commit.height < 1
      || (!commit.blockID.isZero && commit.signatures.length ≠ 0
        && commit.signatures.all CommitSig.validateBasic))

/-- The loop of `ToVoteSet`, over the slots with their indices. -/
def addSigsToVoteSet (c : Crypto) (commit : Commit) :
    List (CommitSig × Nat) → VoteSet → Except CommitPanic VoteSet
  | [], voteSet => .ok voteSet
  | (cs, idx) :: rest, voteSet =>
    if cs.blockIDFlag = .absent then commit.addSigsToVoteSet c rest voteSet
    else
      match commit.getVote idx with
      | .error e => .error e
      | .ok vote =>
        if !vote.validateBasic then .error .invalidReconstructed
        else
          match voteSet.addVote c vote with
          | .error p => .error (.votes p)
          | .ok (voteSet', added, err) =>
            if !added || err.isSome then .error (.notReconstructed err)
            else commit.addSigsToVoteSet c rest voteSet'

def toVoteSet (c : Crypto) (commit : Commit) (chainID : String)
    (vals : ValidatorSet) : Except CommitPanic VoteSet :=
  commit.addSigsToVoteSet c commit.signatures.zipIdx
    (VoteSet.new chainID commit.height commit.round .precommit vals false)

end Commit

namespace ExtendedCommit

def getExtendedVote (ec : ExtendedCommit) (valIndex : Nat) : Except CommitPanic Vote :=
  match ec.extendedSignatures[valIndex]? with
  | none => .error .indexOutOfRange
  | some ecs =>
    match ecs.blockID ec.blockID with
    | .error e => .error e
    | .ok blockID =>
      .ok {
        type := .precommit
        height := ec.height
        round := ec.round
        blockID := blockID
        timestamp := ecs.timestamp
        validatorAddress := ecs.validatorAddress
        validatorIndex := valIndex
        signature := ecs.signature
        extension := ecs.extension
        extensionSignature := ecs.extensionSignature }

/-- `addSigsToVoteSet`, over the slots with their indices. -/
def addSigsToVoteSet (c : Crypto) (ec : ExtendedCommit) :
    List (ExtendedCommitSig × Nat) → VoteSet → Except CommitPanic VoteSet
  | [], voteSet => .ok voteSet
  | (ecs, idx) :: rest, voteSet =>
    if ecs.blockIDFlag = .absent then ec.addSigsToVoteSet c rest voteSet
    else
      match ec.getExtendedVote idx with
      | .error e => .error e
      | .ok vote =>
        if !vote.validateBasic then .error .invalidReconstructed
        else
          match voteSet.addVote c vote with
          | .error p => .error (.votes p)
          | .ok (voteSet', added, err) =>
            if !added || err.isSome then .error (.notReconstructed err)
            else ec.addSigsToVoteSet c rest voteSet'

def toExtendedVoteSet (c : Crypto) (ec : ExtendedCommit) (chainID : String)
    (vals : ValidatorSet) : Except CommitPanic VoteSet :=
  ec.addSigsToVoteSet c ec.extendedSignatures.zipIdx
    (VoteSet.new chainID ec.height ec.round .precommit vals true)

end ExtendedCommit

-- ==== verification

inductive KeyType where
  | ed25519
  | sr25519
  | secp256k1
  /-- keys of other libraries -/
  | other (name : String)
  deriving DecidableEq

/-- A signature scheme with batch verification. A batch verifier is made for
one type of keys; what is added to it is a key, a message and a
signature. -/
structure Verifier extends Crypto where
  /-- `PubKey.Type` -/
  keyType : Bytes → KeyType
  /-- `BatchVerifier.Add` returns no error. -/
  batchAdd : KeyType → (pubKey msg sig : Bytes) → Bool
  /-- `BatchVerifier.Verify` -/
  batchVerify : KeyType → List (Bytes × Bytes × Bytes) → Bool × List Bool

inductive VerifyError where
  | invalidCommitSignatures (expected actual : Nat)
  | invalidCommitHeight (expected actual : Int)
  /-- "invalid commit -- wrong block ID: want %v, got %v" -/
  | wrongBlockID (want got : BlockID)
  /-- "unsupported signature algorithm or insufficient signatures for batch
  verification" -/
  | unsupported
  /-- "double vote from %v (%d and %d)" -/
  | doubleVote (val : Validator) (firstIndex secondIndex : Nat)
  /-- The error of `BatchVerifier.Add`. -/
  | batchAdd
  | notEnoughVotingPowerSigned (got needed : Int)
  /-- "wrong signature (#%d): %X" -/
  | wrongSignature (idx : Nat)
  /-- "BUG: batch verification failed with no invalid signatures" -/
  | batchBug
  /-- "invalid signatures from %v at index %d" -/
  | invalidSignatures (idx : Nat)
  /-- A panic: the validator set has no proposer, or no validator of the
  index. -/
  | nilValidator
  /-- A panic of the commit. -/
  | panic (p : CommitPanic)
  deriving DecidableEq

def VerifyError.isPanic : VerifyError → Bool
  | .nilValidator => true
  | .panic _ => true
  | _ => false

def KeyType.supportsBatchVerifier : KeyType → Bool
  | .ed25519 | .sr25519 => true
  | .secp256k1 | .other _ => false

def batchVerifyThreshold : Nat := 2

namespace ReceivedSet

def allKeysHaveSameType (c : Verifier) (vals : ReceivedSet) : Bool :=
  match vals.validators with
  | [] => true
  | first :: rest => rest.all fun val => c.keyType val.pubKey = c.keyType first.pubKey

end ReceivedSet

def shouldBatchVerify (c : Verifier) (vals : ReceivedSet)
    (commit : Commit) : Except VerifyError Bool :=
  if commit.signatures.length < batchVerifyThreshold then .ok false
  else
    match vals.getProposer with
    | none => .error .nilValidator
    | some proposer =>
      .ok ((c.keyType proposer.pubKey).supportsBatchVerifier && vals.allKeysHaveSameType c)

/-- What the two ways of verification do alike: which signatures they skip
and which they count, whether they may stop at the needed power, and how
they find the validator of a slot. -/
structure VerifyRule where
  votingPowerNeeded : Int
  ignoreSig : CommitSig → Bool
  countSig : CommitSig → Bool
  countAllSignatures : Bool
  lookUpByIndex : Bool

/-- The validator of a slot, with what has been seen so far; nothing for a
signature of somebody else. -/
def VerifyRule.signer (rule : VerifyRule) (vals : ReceivedSet)
    (seenVals : HashMap Nat Nat) (idx : Nat) (commitSig : CommitSig) :
    Except VerifyError (Option (Validator × HashMap Nat Nat)) :=
  if rule.lookUpByIndex then
    match vals.validators[idx]? with
    | none => .error .nilValidator
    | some val => .ok (some (val, seenVals))
  else
    match vals.getByAddress commitSig.validatorAddress with
    | none => .ok none
    | some (valIdx, val) =>
      match seenVals.lookup valIdx with
      | some firstIndex => .error (.doubleVote val firstIndex idx)
      | none => .ok (some (val, seenVals.insert valIdx idx))

/-- What the loop of `verifyCommitBatch` accumulates; a batch entry keeps
its index in the commit. -/
structure BatchState where
  seenVals : HashMap Nat Nat
  batch : List (Nat × Bytes × Bytes × Bytes)
  talliedVotingPower : Int

def batchLoop (c : Verifier) (chainID : String) (vals : ReceivedSet)
    (commit : Commit) (rule : VerifyRule) (type : KeyType) :
    List (CommitSig × Nat) → BatchState → Except VerifyError BatchState
  | [], st => .ok st
  | (commitSig, idx) :: rest, st =>
    if rule.ignoreSig commitSig then batchLoop c chainID vals commit rule type rest st
    else
      match rule.signer vals st.seenVals idx commitSig with
      | .error e => .error e
      | .ok none => batchLoop c chainID vals commit rule type rest st
      | .ok (some (val, seenVals)) =>
        match commit.voteSignBytes c.toCrypto chainID idx with
        | .error p => .error (.panic p)
        | .ok msg =>
          if !c.batchAdd type val.pubKey msg commitSig.signature then .error .batchAdd
          else
            let power :=
              if rule.countSig commitSig then st.talliedVotingPower + val.votingPower
              else st.talliedVotingPower
            let st' : BatchState :=
              ⟨seenVals, st.batch ++ [(idx, val.pubKey, msg, commitSig.signature)], power⟩
            if !rule.countAllSignatures && rule.votingPowerNeeded < power then .ok st'
            else batchLoop c chainID vals commit rule type rest st'

def verifyCommitBatch (c : Verifier) (chainID : String)
    (vals : ReceivedSet) (commit : Commit) (rule : VerifyRule) : Except VerifyError Unit :=
  match vals.getProposer with
  | none => .error .nilValidator
  | some proposer =>
    let type := c.keyType proposer.pubKey
    if !type.supportsBatchVerifier
        || commit.signatures.length < batchVerifyThreshold then
      .error .unsupported
    else
      match batchLoop c chainID vals commit rule type commit.signatures.zipIdx ⟨∅, [], 0⟩ with
      | .error e => .error e
      | .ok st =>
        if st.talliedVotingPower ≤ rule.votingPowerNeeded then
          .error (.notEnoughVotingPowerSigned st.talliedVotingPower rule.votingPowerNeeded)
        else
          let (ok, validSigs) := c.batchVerify type (st.batch.map Prod.snd)
          if ok then .ok ()
          else
            match (st.batch.zip validSigs).find? fun e => !e.2 with
            | some (entry, _) => .error (.wrongSignature entry.1)
            | none => .error .batchBug

/-- The loop of `verifyCommitSingle`, with the power tallied so far. -/
def singleLoop (c : Verifier) (chainID : String) (vals : ReceivedSet) (commit : Commit)
    (rule : VerifyRule) : List (CommitSig × Nat) → HashMap Nat Nat → Int → Except VerifyError Unit
  | [], _, talliedVotingPower =>
    if talliedVotingPower ≤ rule.votingPowerNeeded then
      .error (.notEnoughVotingPowerSigned talliedVotingPower rule.votingPowerNeeded)
    else .ok ()
  | (commitSig, idx) :: rest, seenVals, talliedVotingPower =>
    if rule.ignoreSig commitSig then
      singleLoop c chainID vals commit rule rest seenVals talliedVotingPower
    else if !commitSig.validateBasic then .error (.invalidSignatures idx)
    else
      match rule.signer vals seenVals idx commitSig with
      | .error e => .error e
      | .ok none => singleLoop c chainID vals commit rule rest seenVals talliedVotingPower
      | .ok (some (val, seenVals')) =>
        match commit.voteSignBytes c.toCrypto chainID idx with
        | .error p => .error (.panic p)
        | .ok msg =>
          if !c.verifySignature val.pubKey msg commitSig.signature then .error (.wrongSignature idx)
          else
            let power :=
              if rule.countSig commitSig then talliedVotingPower + val.votingPower
              else talliedVotingPower
            if !rule.countAllSignatures && rule.votingPowerNeeded < power then .ok ()
            else singleLoop c chainID vals commit rule rest seenVals' power

def verifyCommitSingle (c : Verifier) (chainID : String)
    (vals : ReceivedSet) (commit : Commit) (rule : VerifyRule) : Except VerifyError Unit :=
  singleLoop c chainID vals commit rule commit.signatures.zipIdx ∅ 0

def verifyBasicValsAndCommit (vals : ReceivedSet) (commit : Commit)
    (height : Int) (blockID : BlockID) : Except VerifyError Unit :=
  if vals.size ≠ commit.signatures.length then
    .error (.invalidCommitSignatures vals.size commit.signatures.length)
  else if height ≠ commit.height then .error (.invalidCommitHeight height commit.height)
  else if blockID ≠ commit.blockID then .error (.wrongBlockID blockID commit.blockID)
  else .ok ()

/-- In one batch where that is possible, otherwise one by one. -/
def verifyWith (c : Verifier) (chainID : String) (vals : ReceivedSet)
    (commit : Commit) (rule : VerifyRule) : Except VerifyError Unit :=
  match shouldBatchVerify c vals commit with
  | .error e => .error e
  | .ok true => verifyCommitBatch c chainID vals commit rule
  | .ok false => verifyCommitSingle c chainID vals commit rule

/-- All signatures are checked, and those for the block count. -/
def fullRule (vals : ReceivedSet) : VerifyRule where
  votingPowerNeeded := vals.totalVotingPower * 2 / 3
  ignoreSig sig := sig.blockIDFlag = .absent
  countSig sig := sig.blockIDFlag = .commit
  countAllSignatures := true
  lookUpByIndex := true

def verifyCommit (c : Verifier) (chainID : String) (vals : ReceivedSet)
    (blockID : BlockID) (height : Int) (commit : Commit) : Except VerifyError Unit :=
  match verifyBasicValsAndCommit vals commit height blockID with
  | .error e => .error e
  | .ok () => verifyWith c chainID vals commit (fullRule vals)

-- ==== light verification

/-- Only signatures for the block are checked, and all of them count; the
verification may stop once the needed power is exceeded. -/
def lightRule (vals : ReceivedSet) (countAllSignatures : Bool) : VerifyRule where
  votingPowerNeeded := vals.totalVotingPower * 2 / 3
  ignoreSig sig := sig.blockIDFlag ≠ .commit
  countSig _ := true
  countAllSignatures := countAllSignatures
  lookUpByIndex := true

def verifyCommitLightInternal (c : Verifier) (chainID : String) (vals : ReceivedSet)
    (blockID : BlockID) (height : Int) (commit : Commit) (countAllSignatures : Bool) :
    Except VerifyError Unit :=
  match verifyBasicValsAndCommit vals commit height blockID with
  | .error e => .error e
  | .ok () => verifyWith c chainID vals commit (lightRule vals countAllSignatures)

def verifyCommitLight (c : Verifier) (chainID : String) (vals : ReceivedSet)
    (blockID : BlockID) (height : Int) (commit : Commit) : Except VerifyError Unit :=
  verifyCommitLightInternal c chainID vals blockID height commit false

def verifyCommitLightAllSignatures (c : Verifier) (chainID : String) (vals : ReceivedSet)
    (blockID : BlockID) (height : Int) (commit : Commit) : Except VerifyError Unit :=
  verifyCommitLightInternal c chainID vals blockID height commit true

/-- `cmtmath.Fraction`, of uint64 values. -/
structure Fraction where
  numerator : Nat
  denominator : Nat
  numerator_lt : numerator < 2 ^ 64
  denominator_lt : denominator < 2 ^ 64

def Fraction.third : Fraction := ⟨1, 3, by decide, by decide⟩

/-- `safeMul`, nothing on an overflow. The negation of the smallest int64 is
that value itself, and the quotient by it is zero. -/
def safeMul (a b : Int) : Option Int :=
  if a = 0 ∨ b = 0 then some 0
  else
    let absOfB := if b < 0 then wrap64 (-b) else b
    let absOfA := if a < 0 then wrap64 (-a) else a
    if maxInt64.tdiv absOfB < absOfA then none else some (wrap64 (a * b))

inductive TrustingError where
  /-- "trustLevel has zero Denominator" -/
  | zeroDenominator
  /-- "int64 overflow while calculating voting power needed. please provide
  smaller trustLevel numerator" -/
  | overflow
  | verify (err : VerifyError)
  deriving DecidableEq

/-- Signatures for the block by validators of the set, who are found by the
address in the slot. -/
def trustingRule (votingPowerNeeded : Int) (countAllSignatures : Bool) : VerifyRule where
  votingPowerNeeded := votingPowerNeeded
  ignoreSig sig := sig.blockIDFlag ≠ .commit
  countSig _ := true
  countAllSignatures := countAllSignatures
  lookUpByIndex := false

def verifyCommitLightTrustingInternal (c : Verifier) (chainID : String)
    (vals : ReceivedSet) (commit : Commit) (trustLevel : Fraction)
    (countAllSignatures : Bool) : Except TrustingError Unit :=
  if trustLevel.denominator = 0 then .error .zeroDenominator
  else
    match safeMul vals.totalVotingPower (wrap64 trustLevel.numerator) with
    | none => .error .overflow
    | some product =>
      match verifyWith c chainID vals commit (trustingRule
          (product.tdiv (wrap64 trustLevel.denominator))
          countAllSignatures) with
      | .error e => .error (.verify e)
      | .ok () => .ok ()

def verifyCommitLightTrusting (c : Verifier) (chainID : String)
    (vals : ReceivedSet) (commit : Commit) (trustLevel : Fraction) : Except TrustingError Unit :=
  verifyCommitLightTrustingInternal c chainID vals commit trustLevel false

def verifyCommitLightTrustingAllSignatures (c : Verifier) (chainID : String)
    (vals : ReceivedSet) (commit : Commit) (trustLevel : Fraction) : Except TrustingError Unit :=
  verifyCommitLightTrustingInternal c chainID vals commit trustLevel true

end HetuEngine.Comet
