/-
The state between blocks, and what a block is checked against
(state/state.go, state/validation.go, state/execution.go, types/params.go of
hetu-cometbft).

A block is made from the state after the block before it, checked against
that state, and applied to it. Validators are kept for three heights: the
last ones sign the last commit, the present ones vote on the block, and the
next ones are what the application changes.

The answers of the application, the evidence and the transactions that a
proposer gets are parameters.
-/
import HetuEngine.Blocks.Block
import HetuEngine.Comet.MedianTime
import HetuEngine.EvidencePool.Verify

namespace HetuEngine.Blocks

open Comet EvidencePool

-- ==== consensus parameters

structure BlockParams where
  maxBytes : Int
  maxGas : Int

structure ConsensusParams where
  block : BlockParams
  evidence : EvidenceParams
  /-- `Evidence.MaxBytes` -/
  evidenceMaxBytes : Int
  pubKeyTypes : List KeyType
  app : Nat
  abci : ABCIParams

/-- The parameters an application changes (`cmtproto.ConsensusParams`): whole
groups of them. -/
structure ParamUpdates where
  block : Option BlockParams
  evidence : Option (EvidenceParams × Int)
  pubKeyTypes : Option (List KeyType)
  app : Option Nat
  abci : Option ABCIParams

def maxBlockSizeBytes : Int := 104857600

/-- The types of keys in `ABCIPubKeyTypesToNames`. -/
def knownPubKeyType : KeyType → Bool
  | .ed25519 | .secp256k1 => true
  | .sr25519 | .other _ => false

namespace ConsensusParams

def update (params : ConsensusParams) (params2 : ParamUpdates) : ConsensusParams where
  block := params2.block.getD params.block
  evidence := (params2.evidence.map Prod.fst).getD params.evidence
  evidenceMaxBytes := (params2.evidence.map Prod.snd).getD params.evidenceMaxBytes
  pubKeyTypes := params2.pubKeyTypes.getD params.pubKeyTypes
  app := params2.app.getD params.app
  abci := params2.abci.getD params.abci

def maxBytes (params : ConsensusParams) : Int :=
  if params.block.maxBytes = -1 then maxBlockSizeBytes
  else params.block.maxBytes

/-- `ValidateBasic`, without its error. -/
def validateBasic (params : ConsensusParams) : Bool :=
  params.block.maxBytes ≠ 0 && -1 ≤ params.block.maxBytes
    && params.block.maxBytes ≤ maxBlockSizeBytes
    && -1 ≤ params.block.maxGas
    && 0 < params.evidence.maxAgeNumBlocks
    && 0 < params.evidence.maxAgeDuration
    && params.evidenceMaxBytes ≤ params.maxBytes
    && 0 ≤ params.evidenceMaxBytes
    && 0 ≤ params.abci.voteExtensionsEnableHeight
    && params.pubKeyTypes.length ≠ 0 && params.pubKeyTypes.all knownPubKeyType

/-- `ValidateUpdate`, without its error: the rows of its table. -/
def validateUpdate (params : ConsensusParams) (updated : ParamUpdates) (h : Int) : Bool :=
  match updated.abci with
  | none => true
  | some abci =>
    let old := params.abci.voteExtensionsEnableHeight
    let new := abci.voteExtensionsEnableHeight
    if new < 0 then false
    else if old ≤ 0 ∧ new = 0 then true
    else if old = new then true
    else if 0 < old ∧ new = 0 then h < old
    else if new ≤ h then false
    else if old ≤ 0 then true
    else h < old

end ConsensusParams

-- ==== the state

structure State where
  /-- `Version.Consensus` -/
  version : Consensus
  chainID : String
  initialHeight : Int
  lastBlockHeight : Int
  lastBlockID : BlockID
  lastBlockTime : Time
  nextValidators : ValidatorSet
  validators : ValidatorSet
  lastValidators : ValidatorSet
  consensusParams : ConsensusParams
  lastResultsHash : Bytes
  appHash : Bytes

/-- The hashes of what headers say of the state. -/
structure StateEncoding extends BlockEncoding where
  /-- A marshalled `HashedParams`, of the two parameters it has. -/
  hashedParams : BlockParams → Bytes
  /-- The size of marshalled evidence (`EvidenceData.ByteSize`). -/
  evidenceSize : List Evidence → Int
  /-- `ComputeProtoSizeForTxs`, of one transaction -/
  txSize : Bytes → Int

def paramsHash (enc : StateEncoding) (params : ConsensusParams) : Bytes :=
  enc.sum (enc.hashedParams params.block)

-- ==== checking a block

inductive BlockError where
  /-- "invalid header: %w" -/
  | header (err : HeaderError)
  /-- "wrong LastCommit: %v" -/
  | lastCommit
  /-- "wrong Header.LastCommitHash. Expected %v, got %v" -/
  | lastCommitHash
  /-- "wrong Header.DataHash. Expected %v, got %v" -/
  | dataHash
  /-- "invalid evidence (#%d): %v" -/
  | evidence
  /-- "wrong Header.EvidenceHash. Expected %v, got %v" -/
  | evidenceHash
  /-- "wrong Block.Header.Version. Expected %v, got %v" -/
  | version
  /-- "wrong Block.Header.ChainID. Expected %v, got %v" -/
  | chainID
  /-- "wrong Block.Header.Height. Expected %v for initial block, got %v" -/
  | initialHeight
  /-- "wrong Block.Header.Height. Expected %v, got %v" -/
  | height
  /-- "wrong Block.Header.LastBlockID.  Expected %v, got %v" -/
  | lastBlockID
  /-- "wrong Block.Header.AppHash.  Expected %X, got %v" -/
  | appHash
  /-- "wrong Block.Header.ConsensusHash.  Expected %X, got %v" -/
  | consensusHash
  /-- "wrong Block.Header.LastResultsHash.  Expected %X, got %v" -/
  | lastResultsHash
  /-- "wrong Block.Header.ValidatorsHash.  Expected %X, got %v" -/
  | validatorsHash
  /-- "wrong Block.Header.NextValidatorsHash.  Expected %X, got %v" -/
  | nextValidatorsHash
  /-- "initial block can't have LastCommit signatures" -/
  | initialLastCommit
  /-- The error of `VerifyCommit`. -/
  | commit (err : VerifyError)
  /-- "expected ProposerAddress size %d, got %d" -/
  | proposerAddressSize
  /-- "block.Header.ProposerAddress %X is not a validator" -/
  | proposerAddress
  /-- "block time %v not greater than last block time %v" -/
  | timeNotGreater
  /-- "invalid block time. Expected %v, got %v" -/
  | time
  /-- "block time %v is not equal to genesis time %v" -/
  | genesisTime
  /-- "block height %v lower than initial height %v" -/
  | belowInitialHeight
  | evidenceOverflow (max got : Int)
  deriving DecidableEq

def Block.validateBasic (c : Crypto) (enc : BlockEncoding) (b : Block) : Except BlockError Unit :=
  match b.header.validateBasic with
  | .error err => .error (.header err)
  | .ok () =>
    if !b.lastCommit.validateBasic then .error .lastCommit
    else if b.header.lastCommitHash ≠ commitHash enc b.lastCommit then .error .lastCommitHash
    else if b.header.dataHash ≠ txsHash enc b.txs then .error .dataHash
    else if !b.evidence.all (·.validateBasic c enc.toEncoding) then .error .evidence
    else if b.header.evidenceHash ≠ Blocks.evidenceHash enc b.evidence then .error .evidenceHash
    else .ok ()

/-- The checks of `validateBlock` that compare the header with the state, up
to the last commit. -/
def checkHeader (enc : StateEncoding) (state : State) (header : Header) : Except BlockError Unit :=
  if header.version ≠ state.version then .error .version
  else if header.chainID ≠ state.chainID then .error .chainID
  else if state.lastBlockHeight = 0 ∧ header.height ≠ state.initialHeight then .error .initialHeight
  else if 0 < state.lastBlockHeight ∧ header.height ≠ state.lastBlockHeight + 1 then .error .height
  else if header.lastBlockID ≠ state.lastBlockID then .error .lastBlockID
  else if header.appHash ≠ state.appHash then .error .appHash
  else if header.consensusHash ≠ paramsHash enc state.consensusParams then .error .consensusHash
  else if header.lastResultsHash ≠ state.lastResultsHash then .error .lastResultsHash
  else if header.validatorsHash ≠ enc.validators state.validators then .error .validatorsHash
  else if header.nextValidatorsHash ≠ enc.validators state.nextValidators then
    .error .nextValidatorsHash
  else .ok ()

def checkLastCommit (c : Verifier) (state : State) (block : Block) : Except BlockError Unit :=
  if block.height = state.initialHeight then
    if block.lastCommit.signatures.length ≠ 0 then .error .initialLastCommit
    else .ok ()
  else
    match verifyCommit c state.chainID state.lastValidators state.lastBlockID
        (block.height - 1) block.lastCommit with
    | .error err => .error (.commit err)
    | .ok () => .ok ()

def checkTime (state : State) (block : Block) : Except BlockError Unit :=
  if state.initialHeight < block.height then
    if block.header.time ≤ state.lastBlockTime then .error .timeNotGreater
    else if block.header.time ≠ medianTime block.lastCommit state.lastValidators then .error .time
    else .ok ()
  else if block.height = state.initialHeight then
    if block.header.time ≠ state.lastBlockTime then .error .genesisTime
    else .ok ()
  else .error .belowInitialHeight

def validateBlock (c : Verifier) (enc : StateEncoding) (state : State)
    (block : Block) : Except BlockError Unit := do
  block.validateBasic c.toCrypto enc.toBlockEncoding
  checkHeader enc state block.header
  checkLastCommit c state block
  if block.header.proposerAddress.length ≠ addressSize then .error .proposerAddressSize
  else if !state.validators.hasAddress block.header.proposerAddress then .error .proposerAddress
  else
    checkTime state block
    if state.consensusParams.evidenceMaxBytes < enc.evidenceSize block.evidence then
      .error (.evidenceOverflow state.consensusParams.evidenceMaxBytes
        (enc.evidenceSize block.evidence))
    else .ok ()

-- ==== making a block

/-- `types.MakeBlock` and `Header.Populate`, as `State.MakeBlock` calls
them. -/
def State.makeBlock (enc : StateEncoding) (state : State) (height : Int) (txs : List Bytes)
    (lastCommit : Commit) (evidence : List Evidence) (proposerAddress : Bytes) : Block where
  header :=
    { version := state.version
      chainID := state.chainID
      height := height
      time :=
        if height = state.initialHeight then state.lastBlockTime
        else medianTime lastCommit state.lastValidators
      lastBlockID := state.lastBlockID
      lastCommitHash := commitHash enc.toBlockEncoding lastCommit
      dataHash := txsHash enc.toBlockEncoding txs
      validatorsHash := enc.validators state.validators
      nextValidatorsHash := enc.validators state.nextValidators
      consensusHash := paramsHash enc state.consensusParams
      appHash := state.appHash
      lastResultsHash := state.lastResultsHash
      evidenceHash := Blocks.evidenceHash enc.toBlockEncoding evidence
      proposerAddress := proposerAddress }
  txs := txs
  evidence := evidence
  lastCommit := lastCommit

-- ==== applying a block

/-- What of `abci.ResponseFinalizeBlock` the state depends on; the results of
the transactions as they are hashed. -/
structure FinalizeResponse where
  txResults : List Bytes
  /-- `abci.ValidatorUpdate`: key and power -/
  validatorUpdates : List (Bytes × Int)
  consensusParamUpdates : Option ParamUpdates
  appHash : Bytes

inductive ApplyError where
  /-- "expected tx results length to match size of transactions in block.
  Expected %d, got %d" -/
  | txResults (expected got : Nat)
  /-- "error in validator updates: %v" -/
  | validatorUpdates
  /-- "changing validator set: %w" -/
  | changeSet (err : ChangeError)
  /-- A panic of `IncrementProposerPriority`. -/
  | emptySet
  /-- "validating new consensus params: %w" -/
  | params
  /-- "updating consensus params: %w" -/
  | paramsUpdate

/-- `validateValidatorUpdates`, without its error. -/
def validateValidatorUpdates (c : Verifier) (params : ConsensusParams)
    (updates : List (Bytes × Int)) : Bool :=
  updates.all fun (pubKey, power) =>
    !(power < 0) && (power = 0 || params.pubKeyTypes.contains (c.keyType pubKey))

def validatorUpdates (c : Crypto) (updates : List (Bytes × Int)) : List Validator :=
  updates.map fun (pubKey, power) => ⟨c.address pubKey, pubKey, power, 0⟩

/-- The parameters after a block: unchanged without updates, or nothing if
the updates are not valid. -/
def nextParams (params : ConsensusParams) (height : Int) :
    Option ParamUpdates → Except ApplyError ConsensusParams
  | none => .ok params
  | some updates =>
    if !(params.update updates).validateBasic then .error .params
    else if !params.validateUpdate updates height then .error .paramsUpdate
    else .ok (params.update updates)

/-- `updateState`, and the app hash that is set afterwards. -/
def updateState (c : Verifier) (enc : StateEncoding) (state : State)
    (blockID : BlockID) (header : Header) (resp : FinalizeResponse) : Except ApplyError State :=
  match state.nextValidators.updateWithChangeSet
      (validatorUpdates c.toCrypto resp.validatorUpdates) true with
  | .error err => .error (.changeSet err)
  | .ok changed =>
    match changed.incrementProposerPriority 1 with
    | none => .error .emptySet
    | some nValSet =>
      match nextParams state.consensusParams header.height resp.consensusParamUpdates with
      | .error err => .error err
      | .ok params =>
        .ok { state with
          version :=
            if resp.consensusParamUpdates.isSome then { state.version with app := params.app }
            else state.version
          lastBlockHeight := header.height
          lastBlockID := blockID
          lastBlockTime := header.time
          nextValidators := nValSet
          validators := state.nextValidators
          lastValidators := state.validators
          consensusParams := params
          lastResultsHash := hashFromByteSlices enc.sum resp.txResults
          appHash := resp.appHash }

def applyVerifiedBlock (c : Verifier) (enc : StateEncoding) (state : State)
    (blockID : BlockID) (block : Block) (resp : FinalizeResponse) : Except ApplyError State :=
  if block.txs.length ≠ resp.txResults.length then
    .error (.txResults block.txs.length resp.txResults.length)
  else if !validateValidatorUpdates c state.consensusParams
      resp.validatorUpdates then .error .validatorUpdates
  else updateState c enc state blockID block.header resp

end HetuEngine.Blocks
