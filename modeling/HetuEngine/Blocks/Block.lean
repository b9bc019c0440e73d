/-
Blocks (types/block.go, types/block_meta.go of hetu-cometbft). The protobuf
encodings and the hashes of a block's contents are parameters
(`BlockEncoding`).
-/
import HetuEngine.Comet.Parts
import HetuEngine.EvidencePool.Types

namespace HetuEngine.Blocks

open Comet EvidencePool

structure Block where
  header : Header
  txs : List Bytes
  evidence : List Evidence
  lastCommit : Commit

/-- The hash functions and encodings that blocks depend on. -/
structure BlockEncoding extends Encoding where
  /-- A marshalled `CommitSig`. -/
  commitSig : CommitSig → Bytes
  /-- `Evidence.Bytes` -/
  evidence : Evidence → Bytes
  /-- `ToProto` and `proto.Marshal` -/
  marshal : Block → Bytes
  /-- `proto.Unmarshal` and `BlockFromProto`; nothing is an error. -/
  unmarshal : Bytes → Option Block

def commitHash (enc : BlockEncoding) (commit : Commit) : Bytes :=
  hashFromByteSlices enc.sum (commit.signatures.map enc.commitSig)

/-- `Txs.Hash`: the leaves of the tree are the hashes of the transactions. -/
def txsHash (enc : BlockEncoding) (txs : List Bytes) : Bytes :=
  hashFromByteSlices enc.sum (txs.map enc.sum)

def evidenceHash (enc : BlockEncoding) (evidence : List Evidence) : Bytes :=
  hashFromByteSlices enc.sum (evidence.map enc.evidence)

namespace Block

abbrev height (b : Block) : Int := b.header.height

/-- `fillHeader`: the header with its empty hashes filled in. -/
def fillHeader (enc : BlockEncoding) (b : Block) : Header :=
  { b.header with
    lastCommitHash :=
      if b.header.lastCommitHash = [] then commitHash enc b.lastCommit
      else b.header.lastCommitHash
    dataHash :=
      if b.header.dataHash = [] then txsHash enc b.txs
      else b.header.dataHash
    evidenceHash :=
      if b.header.evidenceHash = [] then evidenceHash enc b.evidence
      else b.header.evidenceHash }

def hash (enc : BlockEncoding) (b : Block) : Bytes := enc.header (b.fillHeader enc)

def makePartSet (enc : BlockEncoding) (b : Block) : Option PartSet :=
  PartSet.fromData enc.sum (enc.marshal b) blockPartSizeBytes

end Block

structure BlockMeta where
  blockID : BlockID
  blockSize : Nat
  header : Header
  numTxs : Nat

/-- `NewBlockMeta`. The hash has filled the header. -/
def newBlockMeta (enc : BlockEncoding) (block : Block) (blockParts : PartSet) : BlockMeta where
  blockID := ⟨block.hash enc, blockParts.header⟩
  blockSize := (enc.marshal block).length
  header := block.fillHeader enc
  numTxs := block.txs.length

end HetuEngine.Blocks
