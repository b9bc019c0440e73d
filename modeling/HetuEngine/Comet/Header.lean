/-
Headers and light blocks (types/block.go, types/light.go of hetu-cometbft),
and the hash of the proposer priorities, which no header commits to
(types/validator_set.go).
-/
import HetuEngine.Comet.Commit

namespace HetuEngine.Comet

-- ==== headers

structure Consensus where
  block : Nat
  app : Nat
  deriving DecidableEq

structure Header where
  version : Consensus
  chainID : String
  height : Int
  time : Time
  lastBlockID : BlockID
  lastCommitHash : Bytes
  dataHash : Bytes
  validatorsHash : Bytes
  nextValidatorsHash : Bytes
  consensusHash : Bytes
  appHash : Bytes
  lastResultsHash : Bytes
  evidenceHash : Bytes
  proposerAddress : Bytes
  deriving DecidableEq

def blockProtocol : Nat := 11

def maxChainIDLen : Nat := 50

inductive HeaderError where
  /-- "block protocol is incorrect" -/
  | blockProtocol
  /-- "chainID is too long" -/
  | chainIDTooLong
  /-- "negative Height" -/
  | negativeHeight
  /-- "zero Height" -/
  | zeroHeight
  /-- "wrong LastBlockID" -/
  | lastBlockID
  /-- "wrong LastCommitHash" -/
  | lastCommitHash
  /-- "wrong DataHash" -/
  | dataHash
  /-- "wrong EvidenceHash" -/
  | evidenceHash
  /-- "invalid ProposerAddress length" -/
  | proposerAddress
  /-- "wrong ValidatorsHash" -/
  | validatorsHash
  /-- "wrong NextValidatorsHash" -/
  | nextValidatorsHash
  /-- "wrong ConsensusHash" -/
  | consensusHash
  /-- "wrong LastResultsHash" -/
  | lastResultsHash
  deriving DecidableEq

def Header.validateBasic (h : Header) : Except HeaderError Unit :=
  if h.version.block ≠ Comet.blockProtocol then .error .blockProtocol
  else if maxChainIDLen < h.chainID.utf8ByteSize then .error .chainIDTooLong
  else if h.height < 0 then .error .negativeHeight
  else if h.height = 0 then .error .zeroHeight
  else if !h.lastBlockID.validateBasic then .error .lastBlockID
  else if !validateHash h.lastCommitHash then .error .lastCommitHash
  else if !validateHash h.dataHash then .error .dataHash
  else if !validateHash h.evidenceHash then .error .evidenceHash
  else if h.proposerAddress.length ≠ addressSize then .error .proposerAddress
  else if !validateHash h.validatorsHash then .error .validatorsHash
  else if !validateHash h.nextValidatorsHash then .error .nextValidatorsHash
  else if !validateHash h.consensusHash then .error .consensusHash
  else if !validateHash h.lastResultsHash then .error .lastResultsHash
  else .ok ()

structure SignedHeader where
  header : Header
  commit : Commit

structure LightBlock extends SignedHeader where
  validatorSet : ReceivedSet

/-- `Validator.ValidateBasic`, without its error; no power is negative. -/
def Validator.validateBasic (c : Crypto) (v : Validator) : Bool := v.address = c.address v.pubKey

/-- `ValidatorSet.ValidateBasic`, without its error. A proposer is always
sent with a set. -/
def ReceivedSet.validateBasic (c : Crypto) (vals : ReceivedSet) : Bool :=
  vals.validators.length ≠ 0 && vals.validators.all (·.validateBasic c)
    && vals.proposer.any fun proposer =>
        proposer.validateBasic c && vals.validators.any fun val => val.address = proposer.address

/-- `SignedHeader.ValidateBasic`, without its error, over `Header.Hash`. -/
def SignedHeader.validateBasic (hash : Header → Bytes) (sh : SignedHeader)
    (chainID : String) : Bool :=
  sh.header.validateBasic.isOk && sh.commit.validateBasic && sh.header.chainID = chainID
    && sh.commit.height = sh.header.height && hash sh.header = sh.commit.blockID.hash

/-- `LightBlock.ValidateBasic`, without its error, over `Header.Hash` and
`ValidatorSet.Hash`. -/
def LightBlock.validateBasic (c : Crypto) (hash : Header → Bytes)
    (valsHash : ReceivedSet → Bytes) (lb : LightBlock) (chainID : String) :
    Bool :=
  lb.toSignedHeader.validateBasic hash chainID && lb.validatorSet.validateBasic c
    && lb.header.validatorsHash = valsHash lb.validatorSet

abbrev LightBlock.height (l : LightBlock) : Int := l.header.height

abbrev LightBlock.time (l : LightBlock) : Time := l.header.time

-- ==== proposer priorities

def maxVarintLen64 : Nat := 10

/-- The bytes `binary.PutUvarint` writes: seven bits a byte, the lowest
first, for at most `fuel` bytes more after the first. -/
def putUvarint : Nat → Nat → Bytes
  | 0, x => [UInt8.ofNat x]
  | fuel + 1, x =>
    if x < 0x80 then [UInt8.ofNat x]
    else UInt8.ofNat (x % 0x80 + 0x80) :: putUvarint fuel (x / 0x80)

/-- The bytes `binary.PutVarint` writes for an int64. -/
def putVarint (x : Int) : Bytes :=
  putUvarint (maxVarintLen64 - 1) (if x < 0 then (-2 * x - 1).toNat else (2 * x).toNat)

/-- The loop of `ProposerPriorityHash`: the buffer and `total`. Each number
is written to the front of the buffer, over the one before it. -/
def putPriorities : List Validator → Bytes × Nat → Bytes × Nat
  | [], st => st
  | val :: rest, (buf, total) =>
    let bytes := putVarint val.proposerPriority
    putPriorities rest (bytes ++ buf.drop bytes.length, total + bytes.length)

/-- `ValidatorSet.ProposerPriorityHash`, over `tmhash.Sum`. -/
def ReceivedSet.proposerPriorityHash (sum : Bytes → Bytes) (vals : ReceivedSet) : Bytes :=
  if vals.validators.length = 0 then []
  else
    let (buf, total) := putPriorities vals.validators
      (List.replicate (maxVarintLen64 * vals.validators.length) 0, 0)
    sum (buf.take total)

end HetuEngine.Comet
