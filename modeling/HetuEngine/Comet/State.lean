/-
The consensus state machine (consensus/state.go of hetu-cometbft).

A node goes through heights, rounds and steps. It handles proposals, block
parts, votes, timeouts, and the news that transactions are available, one
after the other. The functions below are those of the source, in its order;
each keeps its guard.

# What is a parameter

`Primitives` are pure functions of libraries: signatures and sign-bytes,
Merkle proofs, and the decoding of a block. `Env` is what the rest of the
node answers while one input is handled: the block executor and the
application, the private validator, the block store, the event bus, the
clock. Nothing is assumed of these answers, with one exception that
`state/validation.go` guarantees: a block without a hash is not valid.

# How an input arrives

A timeout fires only if it was scheduled; it may fire late, again, or never.
A message of a peer has passed `ValidateBasic` in the reactor; one without a
peer is one that the node sent to itself. After a panic, which `panicked`
holds, no input is handled; functions deferred at that moment are not run.

`signed` keeps, with each vote the node sent itself, the votes it had at
that moment, and `finalizing` each call of `finalizeCommit`; nothing reads
them.
-/
import HetuEngine.Comet.PartSet
import HetuEngine.Comet.VoteSet
import HetuEngine.Lib.Fallible

namespace HetuEngine.Comet

open Lib

-- ==== types

inductive Step where
  | newHeight
  | newRound
  | propose
  | prevote
  | prevoteWait
  | precommit
  | precommitWait
  | commit
  deriving DecidableEq

def Step.num : Step → Nat
  | .newHeight => 1
  | .newRound => 2
  | .propose => 3
  | .prevote => 4
  | .prevoteWait => 5
  | .precommit => 6
  | .precommitWait => 7
  | .commit => 8

instance : LE Step := ⟨fun a b => a.num ≤ b.num⟩
instance : LT Step := ⟨fun a b => a.num < b.num⟩
instance (a b : Step) : Decidable (a ≤ b) := Nat.decLe a.num b.num
instance (a b : Step) : Decidable (a < b) := Nat.decLt a.num b.num

/-- `types.Block`, as far as the state machine reads it; `data` is the
rest. -/
structure Block where
  /-- `Hash()`; empty for an incomplete header -/
  hash : Bytes
  height : Int
  time : Time
  data : Bytes
  hash_size : validateHash hash = true

/-- `HashesTo` of a block that may be nil. -/
def hashesTo (block : Option Block) (hash : Bytes) : Bool :=
  hash.length ≠ 0 && block.any fun block => block.hash = hash

structure Proposal where
  type : SignedMsgType
  height : Int
  round : Int
  polRound : Int
  blockID : BlockID
  timestamp : Time
  signature : Bytes
  deriving DecidableEq

/-- `Proposal.ValidateBasic`, without its error. -/
def Proposal.validateBasic (p : Proposal) : Bool :=
  p.type = .proposal && 0 ≤ p.height && 0 ≤ p.round && -1 ≤ p.polRound && p.blockID.validateBasic
    && p.blockID.isComplete && p.signature.length ≠ 0 && p.signature.length ≤ maxSignatureSize

inductive Message where
  | proposal (proposal : Proposal)
  | blockPart (height round : Int) (part : Part)
  | vote (vote : Vote)
  deriving DecidableEq

def Message.validateBasic : Message → Bool
  | .proposal p => p.validateBasic
  | .blockPart height round part => 0 ≤ height && 0 ≤ round && part.validateBasic
  | .vote v => v.validateBasic

structure TimeoutInfo where
  height : Int
  round : Int
  step : Step
  deriving DecidableEq

/-- `sm.State`, the fields used here. -/
structure ChainState where
  chainID : String
  initialHeight : Int
  lastBlockHeight : Int
  validators : ValidatorSet
  maxBytes : Int
  voteExtensionsEnableHeight : Int
  appHash : Bytes
  initialHeight_pos : 1 ≤ initialHeight
  lastBlockHeight_nonneg : 0 ≤ lastBlockHeight

namespace ChainState

/-- `VoteExtensionsEnabled`, for a positive height. -/
def voteExtensionsEnabled (st : ChainState) (height : Int) : Bool :=
  st.voteExtensionsEnableHeight ≠ 0 && st.voteExtensionsEnableHeight ≤ height

def nextHeight (st : ChainState) : Int :=
  if st.lastBlockHeight + 1 = 1 then st.initialHeight
  else st.lastBlockHeight + 1

def blockBytes (st : ChainState) : Int := if st.maxBytes = -1 then 104857600 else st.maxBytes

end ChainState

/-- What of `ConsensusConfig` is used, and whether there is a private
validator. -/
structure Config where
  waitForTxs : Bool
  /-- `CreateEmptyBlocksInterval > 0` -/
  emptyBlocksInterval : Bool
  skipTimeoutCommit : Bool
  privValidator : Bool

inductive Panic where
  | votes (p : VotePanic)
  /-- "empty validator set", or a proposer of one -/
  | emptyValidatorSet
  | overflowInt32
  /-- the error of `CreateProposalBlock` -/
  | createProposalBlock
  /-- "state machine returned an error (%v) when calling ProcessProposal" -/
  | processProposal
  /-- "entering prevote wait step (%v/%v), but prevotes does not have any
  +2/3 votes" -/
  | prevoteWait (height round : Int)
  /-- "this POLRound should be %v but got %v" -/
  | polRound (round polRound : Int)
  /-- "precommit step; +2/3 prevoted for an invalid block: %v" -/
  | prevotedInvalidBlock
  /-- "entering precommit wait step (%v/%v), but precommits does not have
  any +2/3 votes" -/
  | precommitWait (height round : Int)
  /-- "RunActionCommit() expects +2/3 precommits" -/
  | runActionCommit
  /-- "tryFinalizeCommit() cs.Height: %v vs height: %v" -/
  | tryFinalizeCommit (csHeight height : Int)
  /-- "cannot finalize commit; commit does not have 2/3 majority" -/
  | finalizeMajority
  /-- "expected ProposalBlockParts header to be commit header" -/
  | finalizeHeader
  /-- "cannot finalize commit; proposal block does not hash to commit
  hash" -/
  | finalizeHash
  /-- "+2/3 committed an invalid block: %w" -/
  | committedInvalidBlock
  /-- the panics of making the commit and of saving the block -/
  | saveBlock
  /-- "failed to apply block; error %v" -/
  | applyBlock
  /-- "updateToState() expected state height of %v but found %v" -/
  | stateHeight (height lastBlockHeight : Int)
  /-- "inconsistent cs.state.LastBlockHeight+1 %v vs cs.Height %v" -/
  | inconsistentHeight (lastBlockHeight height : Int)
  /-- "inconsistent cs.state.LastBlockHeight %v, expected 0 for initial
  height %v" -/
  | inconsistentInitialHeight (lastBlockHeight initialHeight : Int)
  /-- "wanted to form a commit, but precommits (H/R: %d/%d) didn't have
  2/3+: %v" -/
  | wantedCommit (lastBlockHeight commitRound : Int)
  /-- "last commit cannot be empty after initial block (H:%d)" -/
  | lastCommitEmpty (height : Int)
  /-- "unexpected vote type %v" -/
  | voteType
  /-- "non-recoverable error when signing vote %v: %v" -/
  | signVote
  /-- "vote extension absence/presence does not match extensions enabled
  %t!=%t, height %d, type %v" -/
  | voteExtension
  /-- "invalid timeout step: %v" -/
  | timeoutStep (step : Step)
  deriving DecidableEq

/-- A vote that the node signed, with the votes it had then. -/
structure Signed where
  pubKey : Bytes
  vote : Vote
  votes : HeightVoteSet

/-- A call of `finalizeCommit`: the height, the majority of the commit
round, the block and the header of its parts. -/
structure FinalizeCall where
  height : Int
  commit : Option BlockID
  block : Option Block
  parts : Option PartSetHeader

/-- `consensus.State`, with its `RoundState`. -/
structure State where
  config : Config
  /-- `state`, up to the height before -/
  chain : ChainState
  privValidatorPubKey : Option Bytes
  height : Int
  round : Int
  step : Step
  validators : ValidatorSet
  proposal : Option Proposal
  proposalBlock : Option Block
  proposalBlockParts : Option PartSetPtr
  lockedRound : Int
  lockedBlock : Option Block
  lockedBlockParts : Option PartSetPtr
  validRound : Int
  validBlock : Option Block
  validBlockParts : Option PartSetPtr
  votes : HeightVoteSet
  commitRound : Int
  lastCommit : Option VoteSet
  triggeredTimeoutPrecommit : Bool
  /-- the number of part sets made so far -/
  partSetCount : Nat
  /-- the timeouts given to the ticker -/
  scheduled : List TimeoutInfo
  /-- the proposals and block parts put on `internalMsgQueue` -/
  sent : List Message
  /-- the conflicting votes reported to the evidence pool -/
  reported : List (Vote × Vote)
  /-- the votes put on `internalMsgQueue`, the last one first -/
  signed : List Signed
  finalizing : List FinalizeCall
  panicked : Option Panic

structure Primitives extends Crypto where
  proposalSignBytes : String → Proposal → Bytes
  /-- `Proof.Verify` returns no error -/
  verifyProof : Proof → (root leaf : Bytes) → Bool
  /-- `proto.Unmarshal`, `BlockFromProto` -/
  decodeBlock : Bytes → Option Block

structure VoteSignature where
  signature : Bytes
  timestamp : Time
  extensionSignature : Bytes

/-- The answers of the rest of the node while one input is handled. -/
structure Env where
  now : Time
  /-- `blockExec.ValidateBlock` returns no error -/
  validateBlock : ChainState → Block → Bool
  /-- `blockExec.ProcessProposal`; nothing on an error -/
  processProposal : Block → ChainState → Option Bool
  /-- `blockExec.CreateProposalBlock`; nothing on an error -/
  createProposalBlock : Option Block
  /-- `MakePartSet`; nothing on an error -/
  makePartSet : Block → Option PartSet
  /-- `privValidator.SignProposal`; nothing on an error -/
  signProposal : Proposal → Option Bytes
  /-- `wal.FlushAndSync` returns no error -/
  flushAndSync : Bool
  /-- `blockExec.ExtendVote`; nothing on an error -/
  extendVote : Vote → Option Bytes
  /-- `privValidator.SignVote`; nothing on an error -/
  signVote : Vote → Option VoteSignature
  /-- `blockExec.VerifyVoteExtension` returns no error -/
  verifyVoteExtension : Vote → Bool
  /-- `blockStore.Height()` -/
  blockStoreHeight : Int
  /-- `MakeExtendedCommit` and `SaveBlock` do not panic -/
  saveBlock : Block → PartSet → VoteSet → Bool
  /-- `blockExec.ApplyVerifiedBlock`; nothing on an error -/
  applyVerifiedBlock : ChainState → BlockID → Block → Option ChainState
  /-- `privValidator.GetPubKey`; nothing on an error -/
  getPubKey : Option Bytes
  /-- the app hash in `blockStore.LoadBlockMeta` -/
  blockMetaAppHash : Int → Option Bytes
  /-- the event bus takes a vote, an unlock, a valid block -/
  publishVote : Bool
  publishUnlock : Bool
  publishValidBlock : Bool
  validateBlock_hash : ∀ st block, validateBlock st block = true → block.hash ≠ []

abbrev M := EStateM Panic State

def abort {α : Type} (p : Panic) : M α := do
  modify fun s => { s with panicked := some p }
  throw p

def liftVotes {α : Type} (x : Except VotePanic α) : M α :=
  match x with
  | .ok a => pure a
  | .error p => abort (.votes p)

def liftPanic {α : Type} (x : Except Panic α) : M α :=
  match x with
  | .ok a => pure a
  | .error p => abort p

-- ==== the new height

namespace State

def updateRoundStep (s : State) (round : Int) (step : Step) : State :=
  { s with round := round, step := step }

/-- The fields that `updateToState` resets for a new height. -/
def reset (s : State) (st : ChainState) (lastCommit : Option VoteSet) : State :=
  { s with
    chain := st
    height := st.nextHeight
    round := 0
    step := .newHeight
    validators := st.validators
    proposal := none
    proposalBlock := none
    proposalBlockParts := none
    lockedRound := -1
    lockedBlock := none
    lockedBlockParts := none
    validRound := -1
    validBlock := none
    validBlockParts := none
    votes := HeightVoteSet.new st.chainID st.nextHeight st.validators
      (st.voteExtensionsEnabled st.nextHeight)
    commitRound := -1
    lastCommit := lastCommit
    triggeredTimeoutPrecommit := false }

/-- `updateToState`, after the first call. -/
def updateToState (s : State) (st : ChainState) : Except Panic State :=
  if -1 < s.commitRound ∧ 0 < s.height ∧ s.height ≠ st.lastBlockHeight then
    .error (.stateHeight s.height st.lastBlockHeight)
  else if 0 < s.chain.lastBlockHeight ∧ s.chain.lastBlockHeight + 1 ≠ s.height then
    .error (.inconsistentHeight s.chain.lastBlockHeight s.height)
  else if 0 < s.chain.lastBlockHeight ∧ s.height = s.chain.initialHeight then
    .error (.inconsistentInitialHeight s.chain.lastBlockHeight s.chain.initialHeight)
  -- the new state is not further out
  else if st.lastBlockHeight ≤ s.chain.lastBlockHeight then .ok s
  else if st.lastBlockHeight = 0 then .ok (s.reset st none)
  else if -1 < s.commitRound then
    match VoteSet.twoThirdsMajority (s.votes.precommits s.commitRound) with
    | none => .error (.wantedCommit st.lastBlockHeight s.commitRound)
    | some _ => .ok (s.reset st (s.votes.precommits s.commitRound))
  else if s.lastCommit.isNone then .error (.lastCommitEmpty (st.lastBlockHeight + 1))
  else .ok (s.reset st s.lastCommit)

/-- `NewState` and `OnStart`: the state before the first input. -/
def new (config : Config) (st : ChainState) (lastCommit : Option VoteSet)
    (pubKey : Option Bytes) : State where
  config := config
  chain := st
  privValidatorPubKey := if config.privValidator then pubKey else none
  height := st.nextHeight
  round := 0
  step := .newHeight
  validators := st.validators
  proposal := none
  proposalBlock := none
  proposalBlockParts := none
  lockedRound := -1
  lockedBlock := none
  lockedBlockParts := none
  validRound := -1
  validBlock := none
  validBlockParts := none
  votes := HeightVoteSet.new st.chainID st.nextHeight st.validators
    (st.voteExtensionsEnabled st.nextHeight)
  commitRound := -1
  lastCommit := if st.lastBlockHeight = 0 then none else lastCommit
  triggeredTimeoutPrecommit := false
  partSetCount := 0
  scheduled := [⟨st.nextHeight, 0, .newHeight⟩]
  sent := []
  reported := []
  signed := []
  finalizing := []
  panicked := none

def updatePrivValidatorPubKey (s : State) (pubKey : Option Bytes) : State :=
  if s.config.privValidator then { s with privValidatorPubKey := pubKey.or s.privValidatorPubKey }
  else s

def newParts (s : State) (header : PartSetHeader) : PartSetPtr :=
  ⟨s.partSetCount, PartSet.fromHeader header⟩

end State

def scheduleTimeout (height round : Int) (step : Step) : M Unit :=
  modify fun s => { s with scheduled := ⟨height, round, step⟩ :: s.scheduled }

-- ==== signing

namespace State

def voteTime (s : State) (now : Time) : Time :=
  let minVoteTime :=
    match s.lockedBlock, s.proposalBlock with
    | some block, _ => block.time + 1
    | none, some block => block.time + 1
    | none, none => now
  if minVoteTime < now then now else minVoteTime

end State

/-- `SignAndCheckVote` after the signing; nothing on an error that is not
recoverable. -/
def signAndCheckVote (vote : Vote) (signature : VoteSignature)
    (extensionsEnabled : Bool) : Option Vote :=
  let isPrecommit := vote.type = .precommit
  let isNil := vote.blockID.isZero
  let extSignature := signature.extensionSignature.length > 0
  if !isPrecommit && extensionsEnabled then none
  else if extSignature && (!isPrecommit || isNil) then none
  else if extensionsEnabled && !extSignature && isPrecommit && !isNil then none
  else
    some { vote with
      signature := signature.signature
      extensionSignature := if extensionsEnabled then signature.extensionSignature else []
      timestamp := signature.timestamp }

namespace State

variable (env : Env) (s : State) (type : SignedMsgType) (blockID : BlockID)

def signVote (c : Primitives) (pubKey : Bytes) : Except Panic (Option Vote) :=
  if !env.flushAndSync then .ok none
  else
    let vote : Vote :=
      { type := type
        height := s.height
        round := s.round
        blockID := blockID
        timestamp := s.voteTime env.now
        validatorAddress := c.address pubKey
        validatorIndex := s.validators.indexByAddress (c.address pubKey)
        signature := []
        extension := []
        extensionSignature := [] }
    let extEnabled := s.chain.voteExtensionsEnabled vote.height
    let extension :=
      if type = .precommit && !blockID.isZero && extEnabled then env.extendVote vote
      else some []
    match extension with
    | none => .ok none
    | some extension =>
      match env.signVote { vote with extension := extension } with
      | none => .ok none
      | some signature =>
        match signAndCheckVote { vote with extension := extension }
            signature (extEnabled && type = .precommit) with
        | none => .error .signVote
        | some vote => .ok (some vote)

/-- `signAddVote` up to the sending: the key and the vote, if there is
one. -/
def castVote (c : Primitives) : Except Panic (Option (Bytes × Vote)) :=
  match s.privValidatorPubKey with
  | none => .ok none
  | some pubKey =>
    if !s.validators.hasAddress (c.address pubKey) then .ok none
    else
      match s.signVote env type blockID c pubKey with
      | .error p => .error p
      | .ok none => .ok none
      | .ok (some vote) =>
        let hasExt := vote.extensionSignature.length > 0
        let extEnabled := s.chain.voteExtensionsEnabled vote.height
        if vote.type = .precommit && !vote.blockID.isZero && decide hasExt ≠ extEnabled then
          .error .voteExtension
        else .ok (some (pubKey, vote))

/-- `sendInternalMessage` of an own vote, if there is one. -/
def emit (s : State) : Option (Bytes × Vote) → State
  | none => s
  | some (pubKey, vote) => { s with signed := ⟨pubKey, vote, s.votes⟩ :: s.signed }

end State

variable (c : Primitives)

def signAddVote (env : Env) (type : SignedMsgType) (blockID : BlockID) : M Unit := do
  let s ← get
  let out ← liftPanic (s.castVote env type blockID c)
  modify (·.emit out)

-- ==== prevote

namespace State

def isProposalComplete (s : State) : Bool :=
  match s.proposal with
  | none => false
  | some proposal =>
    if s.proposalBlock.isNone then false
    else if proposal.polRound < 0 then true
    else (VoteSet.twoThirdsMajority (s.votes.prevotes proposal.polRound)).isSome

/-- What `defaultDoPrevote` prevotes. -/
def prevoteID (env : Env) (s : State) : Except Panic BlockID :=
  match s.lockedBlock with
  | some block => .ok ⟨block.hash, headerOf s.lockedBlockParts⟩
  | none =>
    match s.proposalBlock with
    | none => .ok BlockID.zero
    | some block =>
      if !env.validateBlock s.chain block then .ok BlockID.zero
      else
        match env.processProposal block s.chain with
        | none => .error .processProposal
        | some false => .ok BlockID.zero
        | some true => .ok ⟨block.hash, headerOf s.proposalBlockParts⟩

end State

def defaultDoPrevote (env : Env) : M Unit := do
  let s ← get
  let blockID ← liftPanic (s.prevoteID env)
  signAddVote c env .prevote blockID

def enterPrevote (env : Env) (height round : Int) : M Unit := do
  let s ← get
  if s.height ≠ height ∨ round < s.round ∨ (s.round = round ∧ Step.prevote ≤ s.step) then pure ()
  else do
    defaultDoPrevote c env
    modify (·.updateRoundStep round .prevote)

def enterPrevoteWait (height round : Int) : M Unit := do
  let s ← get
  if s.height ≠ height ∨ round < s.round ∨ (s.round = round ∧ Step.prevoteWait ≤ s.step) then
    pure ()
  else if !VoteSet.hasTwoThirdsAny (s.votes.prevotes round) then abort (.prevoteWait height round)
  else do
    scheduleTimeout height round .prevoteWait
    modify (·.updateRoundStep round .prevoteWait)

-- ==== propose

namespace State

/-- `createProposalBlock`, with its part set; nothing on an error. -/
def createProposalBlock (env : Env) (s : State) : Except Panic (Option (Block × PartSet)) :=
  if s.height ≠ s.chain.initialHeight ∧ (VoteSet.twoThirdsMajority s.lastCommit).isNone then
    .ok none
  else
    match env.createProposalBlock with
    | none => .error .createProposalBlock
    | some block =>
      match env.makePartSet block with
      | none => .ok none
      | some parts => .ok (some (block, parts))

/-- `defaultDecideProposal`: the messages it sends. -/
def decideProposal (env : Env) (s : State) (height round : Int) : Except Panic (List Message) :=
  let chosen : Except Panic (Option (Block × PartSet)) :=
    match s.validBlock with
    | some block => .ok (s.validBlockParts.map fun ptr => (block, ptr.set))
    | none => s.createProposalBlock env
  match chosen with
  | .error p => .error p
  | .ok none => .ok []
  | .ok (some (block, parts)) =>
    let proposal : Proposal :=
      { type := .proposal
        height := height
        round := round
        polRound := s.validRound
        blockID := ⟨block.hash, parts.header⟩
        timestamp := env.now
        signature := [] }
    match env.signProposal proposal with
    | none => .ok []
    | some signature =>
      .ok (.proposal { proposal with signature := signature }
        :: (parts.parts.filterMap id).map (Message.blockPart s.height s.round))

/-- The messages that `enterPropose` makes the node send: a proposal, if it
is the node's turn. -/
def proposes (env : Env) (s : State) (height round : Int) : Except Panic (List Message) :=
  match s.privValidatorPubKey with
  | none => .ok []
  | some pubKey =>
    if !s.validators.hasAddress (c.address pubKey) then .ok []
    else if s.validators.getProposer.map Validator.address = some (c.address pubKey) then
      s.decideProposal env height round
    else .ok []

end State

def enterPropose (env : Env) (height round : Int) : M Unit := do
  let s ← get
  if s.height ≠ height ∨ round < s.round ∨ (s.round = round ∧ Step.propose ≤ s.step) then pure ()
  else do
    scheduleTimeout height round .propose
    let messages ← liftPanic (s.proposes c env height round)
    modify fun s => { s with sent := messages ++ s.sent }
    modify (·.updateRoundStep round .propose)
    let s ← get
    if s.isProposalComplete then enterPrevote c env height s.round
    else pure ()

namespace State

def needProofBlock (env : Env) (s : State) (height : Int) : Bool :=
  if height = s.chain.initialHeight then true
  else
    match env.blockMetaAppHash (height - 1) with
    | none => true
    | some appHash => s.chain.appHash ≠ appHash

/-- The validators of a round: the proposer priorities advance with the
rounds. -/
def validatorsAt (s : State) (round : Int) : Option ValidatorSet :=
  if s.round < round then s.validators.incrementProposerPriority (round - s.round)
  else some s.validators

/-- The assignments at the beginning of a round. Round 0 was set up with
the height, and there may be a proposal already. -/
def beginRound (s : State) (round : Int) (validators : ValidatorSet) : State :=
  { s with
    round := round
    step := .newRound
    validators := validators
    proposal := if round ≠ 0 then none else s.proposal
    proposalBlock := if round ≠ 0 then none else s.proposalBlock
    proposalBlockParts := if round ≠ 0 then none else s.proposalBlockParts }

end State

/-- `enterNewRound`, from the vote sets on. -/
def startRound (env : Env) (height round : Int) : M Unit := do
  let s ← get
  if maxInt32 ≤ round then abort .overflowInt32
  else do
    let votes ← liftVotes (s.votes.setRound (round + 1))
    modify fun s => { s with votes := votes, triggeredTimeoutPrecommit := false }
    if s.config.waitForTxs && round = 0 && !s.needProofBlock env height then
      if s.config.emptyBlocksInterval then scheduleTimeout height round .newRound
      else pure ()
    else enterPropose c env height round

def enterNewRound (env : Env) (height round : Int) : M Unit := do
  let s ← get
  if s.height ≠ height ∨ round < s.round ∨ (s.round = round ∧ s.step ≠ .newHeight) then pure ()
  else
    match s.validatorsAt round with
    | none => abort .emptyValidatorSet
    | some validators => do
        modify (·.beginRound round validators)
        if validators.getProposer.isNone then abort .emptyValidatorSet
        else startRound c env height round

-- ==== precommit

namespace State

def unlock (s : State) : State :=
  { s with lockedRound := -1, lockedBlock := none, lockedBlockParts := none }

/-- The node gets ready to receive the parts of another block. -/
def fetch (s : State) (header : PartSetHeader) : State :=
  if hasHeader s.proposalBlockParts header then s
  else
    { s with
      proposalBlock := none
      proposalBlockParts := some (s.newParts header)
      partSetCount := s.partSetCount + 1 }

/-- What `enterPrecommit` does to the lock, and what it precommits. -/
def precommitID (env : Env) (s : State) (round : Int) : Except Panic (State × BlockID) :=
  match VoteSet.twoThirdsMajority (s.votes.prevotes round) with
  -- no polka
  | none => .ok (s, BlockID.zero)
  | some blockID =>
    if s.votes.polInfo.1 < round then .error (.polRound round s.votes.polInfo.1)
    -- +2/3 prevoted nil
    else if blockID.hash.length = 0 then
      .ok (if s.lockedBlock.isNone then s else s.unlock, BlockID.zero)
    -- already locked on that block
    else if hashesTo s.lockedBlock blockID.hash then .ok ({ s with lockedRound := round }, blockID)
    -- +2/3 prevoted for the proposal block
    else if hashesTo s.proposalBlock blockID.hash then
      if s.proposalBlock.all (env.validateBlock s.chain) then
        .ok ({ s with
          lockedRound := round
          lockedBlock := s.proposalBlock
          lockedBlockParts := s.proposalBlockParts }, blockID)
      else .error .prevotedInvalidBlock
    -- a polka for a block we do not have
    else .ok (s.unlock.fetch blockID.partSetHeader, BlockID.zero)

end State

def enterPrecommit (env : Env) (height round : Int) : M Unit := do
  let s ← get
  if s.height ≠ height ∨ round < s.round ∨ (s.round = round ∧ Step.precommit ≤ s.step) then pure ()
  else do
    let (s', blockID) ← liftPanic (s.precommitID env round)
    set s'
    signAddVote c env .precommit blockID
    modify (·.updateRoundStep round .precommit)

def enterPrecommitWait (height round : Int) : M Unit := do
  let s ← get
  if s.height ≠ height ∨ round < s.round ∨ (s.round = round ∧ s.triggeredTimeoutPrecommit) then
    pure ()
  else if !VoteSet.hasTwoThirdsAny (s.votes.precommits round) then
    abort (.precommitWait height round)
  else do
    scheduleTimeout height round .precommitWait
    modify fun s => { s with triggeredTimeoutPrecommit := true }

-- ==== commit

namespace State

def finalizeCall (s : State) : FinalizeCall where
  height := s.height
  commit := VoteSet.twoThirdsMajority (s.votes.precommits s.commitRound)
  block := s.proposalBlock
  parts := s.proposalBlockParts.map fun ptr => ptr.set.header

/-- The checks of `finalizeCommit`, the saving of the block and its
execution: the state of the next height. -/
def applyCommit (env : Env) (s : State) : Except Panic ChainState :=
  match VoteSet.twoThirdsMajority (s.votes.precommits s.commitRound) with
  | none => .error .finalizeMajority
  | some blockID =>
    match s.proposalBlockParts, s.proposalBlock with
    | some ptr, some block =>
      if ptr.set.header ≠ blockID.partSetHeader then .error .finalizeHeader
      else if !hashesTo (some block) blockID.hash then .error .finalizeHash
      else if !env.validateBlock s.chain block then .error .committedInvalidBlock
      else if env.blockStoreHeight < block.height
          ∧ !(s.votes.precommits s.commitRound).all (env.saveBlock block ptr.set) then
        .error .saveBlock
      else
        match env.applyVerifiedBlock s.chain ⟨block.hash, ptr.set.header⟩ block with
        | none => .error .applyBlock
        | some st => .ok st
    | none, _ => .error .finalizeHeader
    | some ptr, none =>
      if ptr.set.header ≠ blockID.partSetHeader then .error .finalizeHeader
      else .error .finalizeHash

/-- The end of `finalizeCommit`: the next height, and its first timeout. -/
def nextHeight (env : Env) (s : State) (st : ChainState) : Except Panic State :=
  match s.updateToState st with
  | .error p => .error p
  | .ok s' =>
    let s' := s'.updatePrivValidatorPubKey env.getPubKey
    .ok { s' with scheduled := ⟨s'.height, 0, .newHeight⟩ :: s'.scheduled }

end State

def finalizeCommit (env : Env) (height : Int) : M Unit := do
  let s ← get
  if s.height ≠ height ∨ s.step ≠ .commit then pure ()
  else do
    modify fun s => { s with finalizing := s.finalizeCall :: s.finalizing }
    let s ← get
    let st ← liftPanic (s.applyCommit env)
    let s' ← liftPanic (s.nextHeight env st)
    set s'

def tryFinalizeCommit (env : Env) (height : Int) : M Unit := do
  let s ← get
  if s.height ≠ height then abort (.tryFinalizeCommit s.height height)
  else
    match VoteSet.twoThirdsMajority (s.votes.precommits s.commitRound) with
    | none => pure ()
    | some blockID =>
      if hashesTo s.proposalBlock blockID.hash then finalizeCommit env height
      else pure ()

namespace State

def enterCommit (s : State) (commitRound : Int) (blockID : BlockID) : State :=
  let s' :=
    if hashesTo s.lockedBlock blockID.hash then
      { s with proposalBlock := s.lockedBlock, proposalBlockParts := s.lockedBlockParts }
    else s
  let s'' :=
    if hashesTo s'.proposalBlock blockID.hash then s'
    else s'.fetch blockID.partSetHeader
  { s''.updateRoundStep s''.round .commit with commitRound := commitRound }

end State

def enterCommit (env : Env) (height commitRound : Int) : M Unit := do
  let s ← get
  if s.height ≠ height ∨ Step.commit ≤ s.step then pure ()
  else
    match VoteSet.twoThirdsMajority (s.votes.precommits commitRound) with
    | none => abort .runActionCommit
    | some blockID => do
        modify (·.enterCommit commitRound blockID)
        tryFinalizeCommit env height

-- ==== proposals

inductive ProposalError where
  /-- `ErrInvalidProposalPOLRound` -/
  | invalidPOLRound
  /-- `ErrInvalidProposalSignature` -/
  | invalidSignature
  | tooManyParts

namespace State

/-- `defaultSetProposal`, given the proposer's key. -/
def setProposal (s : State) (proposal : Proposal) (pubKey : Bytes) : Except ProposalError State :=
  if s.proposal.isSome then .ok s
  else if proposal.height ≠ s.height ∨ proposal.round ≠ s.round then .ok s
  else if proposal.polRound < -1 ∨ (0 ≤ proposal.polRound ∧ proposal.round ≤ proposal.polRound) then
    .error .invalidPOLRound
  else if !c.verifySignature pubKey
      (c.proposalSignBytes s.chain.chainID proposal) proposal.signature then
    .error .invalidSignature
  else if (s.chain.blockBytes - 1) / blockPartSizeBytes + 1
      < (proposal.blockID.partSetHeader.total : Int) then
    .error .tooManyParts
  else if s.proposalBlockParts.isNone then
    .ok { s with
      proposal := some proposal
      proposalBlockParts := some (s.newParts proposal.blockID.partSetHeader)
      partSetCount := s.partSetCount + 1 }
  else .ok { s with proposal := some proposal }

end State

/-- `defaultSetProposal`; the error is logged. -/
def defaultSetProposal (proposal : Proposal) : M Unit := do
  let s ← get
  match s.validators.getProposer with
  | none => abort .emptyValidatorSet
  | some proposer =>
    match s.setProposal c proposal proposer.pubKey with
    | .error _ => pure ()
    | .ok s' => set s'

namespace State

/-- The part set of this identity has new contents, for all who point to
it. -/
def writeParts (s : State) (id : Nat) (contents : PartSet) : State :=
  { s with
    proposalBlockParts := s.proposalBlockParts.map (·.write id contents)
    lockedBlockParts := s.lockedBlockParts.map (·.write id contents)
    validBlockParts := s.validBlockParts.map (·.write id contents) }

/-- The block that `addProposalBlockPart` decodes from a part set. -/
def decoded (s : State) (ps : PartSet) : Option Block :=
  if s.chain.blockBytes < ps.byteSize then none
  else if ps.isComplete then c.decodeBlock ps.bytes
  else none

end State

/-- `addProposalBlockPart`: whether the part was added. -/
def addProposalBlockPart (height : Int) (part : Part) : M Bool := do
  let s ← get
  if s.height ≠ height then pure false
  else
    match s.proposalBlockParts with
    | none => pure false
    | some ptr =>
      match ptr.set.addPart c.verifyProof part with
      | .error _ => pure false
      | .ok (_, false) => pure false
      | .ok (ps, true) => do
          modify (·.writeParts ptr.id ps)
          match s.decoded c ps with
          | none => pure true
          | some block => do
              modify fun s => { s with proposalBlock := some block }
              pure true

namespace State

/-- The update of the valid block in `handleCompleteProposal`. -/
def completeValid (s : State) (majority : Option BlockID) : State :=
  match majority with
  | none => s
  | some blockID =>
    if !blockID.isZero && s.validRound < s.round && hashesTo s.proposalBlock blockID.hash then
      { s with
        validRound := s.round
        validBlock := s.proposalBlock
        validBlockParts := s.proposalBlockParts }
    else s

end State

def handleCompleteProposal (env : Env) (blockHeight : Int) : M Unit := do
  let s ← get
  let majority := VoteSet.twoThirdsMajority (s.votes.prevotes s.round)
  modify (·.completeValid majority)
  let s ← get
  if s.step ≤ Step.propose ∧ s.isProposalComplete then do
    enterPrevote c env blockHeight s.round
    let s ← get
    if majority.isSome then enterPrecommit c env blockHeight s.round
    else pure ()
  else if s.step = .commit then tryFinalizeCommit env blockHeight
  else pure ()

-- ==== votes

namespace State

/-- A polka that releases the lock: `LockedRound < vote.Round <= Round`. -/
def unlocks (s : State) (round : Int) (blockID : BlockID) : Bool :=
  s.lockedBlock.isSome && s.lockedRound < round && round ≤ s.round
    && !hashesTo s.lockedBlock blockID.hash

/-- A polka of the current round for a block. -/
def validates (s : State) (round : Int) (blockID : BlockID) : Bool :=
  blockID.hash.length ≠ 0 && s.validRound < round && round = s.round

/-- The update of the valid block in `addVote`. -/
def updateValid (s : State) (round : Int) (blockID : BlockID) : State :=
  let s' :=
    if hashesTo s.proposalBlock blockID.hash then
      { s with
        validRound := round
        validBlock := s.proposalBlock
        validBlockParts := s.proposalBlockParts }
    else { s with proposalBlock := none }
  if hasHeader s'.proposalBlockParts blockID.partSetHeader then s'
  else
    { s' with
      proposalBlockParts := some (s'.newParts blockID.partSetHeader)
      partSetCount := s'.partSetCount + 1 }

/-- The check of vote extensions in `addVote`. -/
def checkExtension (env : Env) (s : State) (vote : Vote) (peerID : PeerID) : Option VoteError :=
  if s.chain.voteExtensionsEnabled vote.height then
    if vote.type = .precommit && !vote.blockID.isZero && vote.validatorAddress
            ≠ (s.privValidatorPubKey.elim [] c.address) then
      match s.chain.validators.getByIndex vote.validatorIndex with
      | none => some (.indexOutOfBounds vote.validatorIndex s.chain.validators.size)
      | some val =>
        match c.verifyExtension s.chain.chainID val.pubKey vote with
        | .error e => some e
        | .ok () =>
          if env.verifyVoteExtension vote then none
          else some .invalidVoteExtension
    else none
  else if 0 < vote.extension.length || 0 < vote.extensionSignature.length then
    some (.extensionsDisabled vote.height peerID)
  else none

end State

/-- The part of `addVote` on +2/3 prevotes for a block or nil; false if it
returns early with the error of the event bus. -/
def onPolka (env : Env) (round : Int) (blockID : BlockID) : M Bool := do
  let s ← get
  let unlocks := s.unlocks round blockID
  modify fun s => if unlocks then s.unlock else s
  if unlocks && !env.publishUnlock then pure false
  else do
    let s ← get
    if s.validates round blockID then do
      modify (·.updateValid round blockID)
      pure env.publishValidBlock
    else pure true

/-- The transitions of `addVote` on a prevote. -/
def afterPrevote (env : Env) (round : Int) : M Unit := do
  let s ← get
  let prevotes := s.votes.prevotes round
  if s.round < round ∧ VoteSet.hasTwoThirdsAny prevotes then enterNewRound c env s.height round
  else if s.round = round ∧ Step.prevote ≤ s.step then
    match VoteSet.twoThirdsMajority prevotes with
    | some blockID =>
      if s.isProposalComplete || blockID.hash.length = 0 then enterPrecommit c env s.height round
      else if VoteSet.hasTwoThirdsAny prevotes then enterPrevoteWait s.height round
      else pure ()
    | none =>
      if VoteSet.hasTwoThirdsAny prevotes then enterPrevoteWait s.height round
      else pure ()
  else if s.proposal.any fun p => 0 ≤ p.polRound ∧ p.polRound = round then
    if s.isProposalComplete then enterPrevote c env s.height s.round
    else pure ()
  else pure ()

def addPrevote (env : Env) (round : Int) (err : Option VoteError) :
    M (Bool × Option VoteError) := do
  let s ← get
  match VoteSet.twoThirdsMajority (s.votes.prevotes round) with
  | none => do
      afterPrevote c env round
      pure (true, err)
  | some blockID => do
      let published ← onPolka env round blockID
      if published then do
        afterPrevote c env round
        pure (true, err)
      else pure (true, some .publish)

def addPrecommit (env : Env) (round : Int) : M Unit := do
  let s ← get
  let precommits := s.votes.precommits round
  match VoteSet.twoThirdsMajority precommits with
  | some blockID => do
      -- the majority may be of a higher round
      enterNewRound c env s.height round
      enterPrecommit c env s.height round
      if blockID.hash.length ≠ 0 then do
        enterCommit env s.height round
        let s' ← get
        if s'.config.skipTimeoutCommit && VoteSet.hasAll precommits then
          enterNewRound c env s'.height 0
        else pure ()
      else enterPrecommitWait s.height round
  | none =>
    if s.round ≤ round ∧ VoteSet.hasTwoThirdsAny precommits then do
      enterNewRound c env s.height round
      enterPrecommitWait s.height round
    else pure ()

def addLastCommitVote (env : Env) (vote : Vote) : M (Bool × Option VoteError) := do
  let s ← get
  if s.step ≠ .newHeight then pure (false, none)
  else
    match s.lastCommit with
    | none => abort (.votes .nilVoteSet)
    | some lastCommit => do
        let (lastCommit', added, err) ← liftVotes (lastCommit.addVote c.toCrypto vote)
        modify fun s => { s with lastCommit := some lastCommit' }
        if !added then pure (added, err)
        else if !env.publishVote then pure (added, some .publish)
        else if s.config.skipTimeoutCommit && VoteSet.hasAll (some lastCommit') then do
          enterNewRound c env s.height 0
          pure (added, err)
        else pure (added, err)

/-- `addVote`: whether the vote was added, and the error. -/
def addVote (env : Env) (vote : Vote) (peerID : PeerID) : M (Bool × Option VoteError) := do
  let s ← get
  if vote.height + 1 = s.height ∧ vote.type = .precommit then addLastCommitVote c env vote
  else if vote.height ≠ s.height then pure (false, none)
  else
    match s.checkExtension c env vote peerID with
    | some e => pure (false, some e)
    | none => do
        let (votes, added, err) ←
          liftVotes (s.votes.addVote c.toCrypto vote peerID
            (s.chain.voteExtensionsEnabled vote.height))
        modify fun s => { s with votes := votes }
        if !added then pure (added, err)
        else if !env.publishVote then pure (added, some .publish)
        else
          match vote.type with
          | .prevote => addPrevote c env vote.round err
          | .precommit => do
              addPrecommit c env vote.round
              pure (added, err)
          | .unknown | .proposal => abort .voteType

/-- `tryAddVote`: conflicting votes of others go to the evidence pool. -/
def tryAddVote (env : Env) (vote : Vote) (peerID : PeerID) : M Unit := do
  let (_, err) ← addVote c env vote peerID
  match err with
  | some (.conflictingVotes voteA voteB) =>
    modify fun s =>
      if s.privValidatorPubKey.all fun pubKey => vote.validatorAddress = c.address pubKey then s
      else { s with reported := (voteA, voteB) :: s.reported }
  | _ => pure ()

-- ==== inputs

def handleMsg (env : Env) (msg : Message) (peerID : PeerID) : M Unit :=
  match msg with
  | .proposal proposal => defaultSetProposal c proposal
  | .blockPart height _ part => do
      let added ← addProposalBlockPart c height part
      let s ← get
      if added && s.proposalBlockParts.any fun ptr => ptr.set.isComplete then
        handleCompleteProposal c env height
      else pure ()
  | .vote vote => tryAddVote c env vote peerID

def handleTimeout (env : Env) (ti : TimeoutInfo) : M Unit := do
  let s ← get
  if ti.height ≠ s.height ∨ ti.round < s.round ∨ (ti.round = s.round ∧ ti.step < s.step) then
    pure ()
  else
    match ti.step with
    | .newHeight => enterNewRound c env ti.height 0
    | .newRound => enterPropose c env ti.height ti.round
    | .propose => enterPrevote c env ti.height ti.round
    | .prevoteWait => enterPrecommit c env ti.height ti.round
    | .precommitWait => do
        enterPrecommit c env ti.height ti.round
        enterNewRound c env ti.height (Int.bmod (ti.round + 1) (2 ^ 32))
    | .prevote | .precommit | .commit => abort (.timeoutStep ti.step)

def handleTxsAvailable (env : Env) : M Unit := do
  let s ← get
  if s.round ≠ 0 then pure ()
  else
    match s.step with
    | .newHeight =>
      if s.needProofBlock env s.height then pure ()
      else scheduleTimeout s.height 0 .newRound
    | .newRound => enterPropose c env s.height 0
    | _ => pure ()

inductive Input where
  /-- a message of a peer, or of the node itself if there is no peer -/
  | message (msg : Message) (peerID : PeerID)
  | timeout (ti : TimeoutInfo)
  | txsAvailable
  /-- the reactor's `VoteSetMaj23Message` -/
  | peerMaj23 (height round : Int) (type : SignedMsgType) (peerID : PeerID) (blockID : BlockID)

/-- An input, with the answers of the environment while it is handled. -/
structure Event where
  env : Env
  input : Input

namespace State

/-- The message can arrive: a peer's has passed the reactor, the node's own
was sent. -/
def arrives (s : State) (msg : Message) (peerID : PeerID) : Bool :=
  if peerID ≠ "" then msg.validateBasic
  else
    match msg with
    | .vote vote => s.signed.any fun e => e.vote = vote
    | msg => msg ∈ s.sent

/-- One round of the loop in `receiveRoutine`, or one message that the
reactor handles itself. -/
def handle (env : Env) (s : State) : Input → State
  | .message msg peerID =>
    if s.arrives msg peerID then Fallible.final (handleMsg c env msg peerID) s
    else s
  | .timeout ti =>
    if ti ∈ s.scheduled then Fallible.final (handleTimeout c env ti) s
    else s
  | .txsAvailable => Fallible.final (handleTxsAvailable c env) s
  | .peerMaj23 height round type peerID blockID =>
    if s.height = height then { s with votes := s.votes.setPeerMaj23 round type peerID blockID }
    else s

def receive (s : State) (e : Event) : State :=
  if s.panicked.isSome then s else s.handle c e.env e.input

def run (s : State) (es : List Event) : State := es.foldl (receive c) s

end State

end HetuEngine.Comet
