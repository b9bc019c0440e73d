/-
The block store (store/store.go of hetu-cometbft).

The store keeps the blocks of the heights from `base` to `height` in a
key-value database. The two bounds are in memory, and under a key of their
own in the database, from which they are read when the store is opened.

Every operation collects deletions and settings in a batch and writes the
batch, which is atomic. `SaveBlock` writes the parts of a large block one by
one before the batch, and `PruneBlocks` writes its batch after every thousand
blocks. The model of an operation gives the batches it writes in their order,
a single write being a batch of one; a crash may come after any of them.
-/
import HetuEngine.Blocks.Block
import HetuEngine.EvidencePool.Verify
import HetuEngine.Lib.Database

namespace HetuEngine.Blocks

open Lib Comet EvidencePool

-- ==== the database

inductive Key where
  | blockMeta (height : Int)
  | blockPart (height : Int) (partIndex : Nat)
  | blockCommit (height : Int)
  | seenCommit (height : Int)
  | extCommit (height : Int)
  | blockHash (hash : Bytes)
  | blockStore
  deriving DecidableEq

inductive Value where
  | blockMeta (blockMeta : BlockMeta)
  | part (part : Part)
  | commit (commit : Commit)
  | extCommit (extCommit : ExtendedCommit)
  | height (height : Int)
  /-- `BlockStoreState` -/
  | state (base height : Int)

abbrev DB := Database Key Value

abbrev Batch := List (Write Key Value)

def put (key : Key) (value : Value) : Write Key Value := ⟨key, some value⟩

def delete (key : Key) : Write Key Value := ⟨key, none⟩

/-- The values, if none of them is missing. -/
def present {α : Type} : List (Option α) → Option (List α)
  | [] => some []
  | none :: _ => none
  | some a :: l => (present l).map (a :: ·)

structure BlockStore where
  base : Int
  height : Int
  db : DB

def loadBlockStoreState (db : DB) : Int × Int :=
  match db .blockStore with
  | some (.state base height) =>
    -- Data from before there was a base.
    if 0 < height ∧ base = 0 then (1, height) else (base, height)
  | _ => (0, 0)

def newBlockStore (db : DB) : BlockStore :=
  let (base, height) := loadBlockStoreState db
  ⟨base, height, db⟩

namespace BlockStore

variable (bs : BlockStore)

-- ==== reading

def loadBlockMeta (height : Int) : Option BlockMeta :=
  match bs.db (.blockMeta height) with
  | some (.blockMeta m) => some m
  | _ => none

def loadBlockPart (height : Int) (index : Nat) : Option Part :=
  match bs.db (.blockPart height index) with
  | some (.part part) => some part
  | _ => none

/-- `LoadBlock`; nothing also where it panics. -/
def loadBlock (enc : BlockEncoding) (height : Int) : Option Block :=
  match bs.loadBlockMeta height with
  | none => none
  | some m =>
    match present ((List.range m.blockID.partSetHeader.total).map (bs.loadBlockPart height)) with
    | none => none
    | some parts => enc.unmarshal (parts.flatMap Part.bytes)

def loadBlockByHash (enc : BlockEncoding) (hash : Bytes) : Option Block :=
  match bs.db (.blockHash hash) with
  | some (.height height) => bs.loadBlock enc height
  | _ => none

def loadBlockCommit (height : Int) : Option Commit :=
  match bs.db (.blockCommit height) with
  | some (.commit commit) => some commit
  | _ => none

def loadSeenCommit (height : Int) : Option Commit :=
  match bs.db (.seenCommit height) with
  | some (.commit commit) => some commit
  | _ => none

def loadBlockExtendedCommit (height : Int) : Option ExtendedCommit :=
  match bs.db (.extCommit height) with
  | some (.extCommit extCommit) => some extCommit
  | _ => none

-- ==== saving

/-- `saveStateAndWriteDB`: what is written. -/
def withState (batch : Batch) (base height : Int) : Batch :=
  batch ++ [put .blockStore (.state base height)]

inductive SaveError where
  /-- "BlockStore can only save contiguous blocks. Wanted %v, got %v" -/
  | notContiguous (wanted got : Int)
  /-- "BlockStore can only save complete block part sets" -/
  | incompleteParts
  /-- "BlockStore cannot save seen commit of a different height (block: %d,
  commit: %d)" -/
  | seenCommitHeight (block commit : Int)
  /-- "problems saving block with extensions: %w" -/
  | extensions (e : ExtensionError)
  /-- "unable to make part into proto: %w", of a part that is nil, which none
  of a complete set is. -/
  | nilPart

def maxBlockPartsToBatch : Nat := 10

def partWrites (height : Int) (parts : List Part) : Batch :=
  parts.zipIdx.map fun (part, i) => put (.blockPart height i) (.part part)

/-- The writes of `saveBlockToBatch` after the parts. -/
def blockWrites (enc : BlockEncoding) (block : Block) (blockParts : PartSet)
    (seenCommit : Commit) : Batch :=
  [put (.blockMeta block.height) (.blockMeta (newBlockMeta enc block blockParts)),
    put (.blockHash (block.hash enc)) (.height block.height),
    put (.blockCommit (block.height - 1)) (.commit block.lastCommit),
    put (.seenCommit block.height) (.commit seenCommit)]

/-- `saveBlockToBatch`: the parts that are written at once, each with a write
of its own, and the batch. -/
def saveBlockToBatch (enc : BlockEncoding) (block : Block)
    (blockParts : PartSet) (seenCommit : Commit) : Except SaveError (List Batch × Batch) :=
  let height := block.height
  if 0 < bs.base ∧ height ≠ bs.height + 1 then .error (.notContiguous (bs.height + 1) height)
  else if !blockParts.isComplete then .error .incompleteParts
  else if height ≠ seenCommit.height then .error (.seenCommitHeight height seenCommit.height)
  else
    match present ((List.range blockParts.total).map fun i => blockParts.parts.getD i none) with
    | none => .error .nilPart
    | some parts =>
      let rest := blockWrites enc block blockParts seenCommit
      if blockParts.count ≤ maxBlockPartsToBatch then .ok ([], partWrites height parts ++ rest)
      else .ok ((partWrites height parts).map fun w => [w], rest)

/-- The end of `SaveBlock` and `SaveBlockWithExtendedCommit`: the batches
written, and the store afterwards. -/
def saveBatch (height : Int) (direct : List Batch) (batch : Batch) : List Batch × BlockStore :=
  let base := if bs.base = 0 then height else bs.base
  let writes := direct ++ [withState batch base height]
  (writes, ⟨base, height, bs.db.writeAll writes⟩)

def saveBlock (enc : BlockEncoding) (block : Block) (blockParts : PartSet)
    (seenCommit : Commit) : Except SaveError (List Batch × BlockStore) :=
  match bs.saveBlockToBatch enc block blockParts seenCommit with
  | .error e => .error e
  | .ok (direct, batch) => .ok (bs.saveBatch block.height direct batch)

def saveBlockWithExtendedCommit (enc : BlockEncoding) (block : Block) (blockParts : PartSet)
    (seenExtendedCommit : ExtendedCommit) : Except SaveError (List Batch × BlockStore) :=
  match ExtendedCommit.ensureExtensions true seenExtendedCommit.extendedSignatures with
  | .error e => .error (.extensions e)
  | .ok () =>
    match bs.saveBlockToBatch enc block blockParts seenExtendedCommit.toCommit with
    | .error e => .error e
    | .ok (direct, batch) =>
      .ok (bs.saveBatch block.height direct (batch ++
          [put (.extCommit block.height) (.extCommit seenExtendedCommit)]))

-- ==== pruning

/-- What `PruneBlocks` reads of `sm.State`. -/
structure EvidenceAge where
  lastBlockHeight : Int
  lastBlockTime : Time
  params : EvidenceParams

inductive PruneError where
  /-- "height must be greater than 0" -/
  | notPositive
  /-- "cannot prune beyond the latest height %v" -/
  | beyondLatest (height : Int)
  /-- "cannot prune to height %v, it is lower than base height %v" -/
  | belowBase (height base : Int)

/-- `PruneBlocks` writes its batch after so many blocks. -/
def blocksPerFlush : Nat := 1000

/-- The local variables of `PruneBlocks`, with the batches written so far and
the database they have led to. -/
structure Pruning where
  db : DB
  writes : List Batch
  batch : Batch
  pruned : Nat
  evidencePoint : Int

def Pruning.flush (p : Pruning) (base height : Int) : Pruning :=
  let batch := withState p.batch base height
  { p with db := p.db.write batch, writes := p.writes ++ [batch], batch := [] }

/-- The deletions for one block. Its meta and commit stay if evidence may
need them. -/
def deletions (h : Int) (m : BlockMeta) (needed : Bool) : Batch :=
  (if needed then [] else [delete (.blockMeta h)]) ++ [delete (.blockHash m.blockID.hash)]
    ++ (if needed then [] else [delete (.blockCommit h)])
    ++ [delete (.seenCommit h)]
    ++ (List.range m.blockID.partSetHeader.total).map fun p => delete (.blockPart h p)

/-- The evidence point after a block has been looked at: the first one that
evidence may still be about. -/
def Pruning.nextEvidencePoint (state : EvidenceAge) (height : Int)
    (p : Pruning) (h : Int) (m : BlockMeta) : Int :=
  if p.evidencePoint = height
      ∧ !isEvidenceExpired state.lastBlockHeight state.lastBlockTime h
          m.header.time state.params then h
  else p.evidencePoint

/-- Delete a block in the batch. -/
def Pruning.add (p : Pruning) (h : Int) (m : BlockMeta) (evidencePoint : Int) : Pruning :=
  { p with
    batch := p.batch ++ deletions h m (evidencePoint ≤ h)
    pruned := p.pruned + 1
    evidencePoint := evidencePoint }

def Pruning.visit (state : EvidenceAge) (height latest : Int) (p : Pruning) (h : Int) : Pruning :=
  match loadBlockMeta ⟨h, latest, p.db⟩ h with
  | none => p
  | some m =>
    let p := p.add h m (p.nextEvidencePoint state height h m)
    if p.pruned % blocksPerFlush = 0 then p.flush h latest else p

/-- The loop of `PruneBlocks` over the first `n` heights. -/
def pruneLoop (state : EvidenceAge) (height : Int) (n : Nat) : Pruning :=
  (List.range n).foldl (fun p (i : Nat) => p.visit state height bs.height (bs.base + i))
    ⟨bs.db, [], [], 0, height⟩

/-- `PruneBlocks`: the batches written, the store afterwards, the number of
blocks pruned and the evidence retain height. -/
def pruneBlocks (height : Int) (state : EvidenceAge) :
    Except PruneError (List Batch × BlockStore × Nat × Int) :=
  if height ≤ 0 then .error .notPositive
  else if bs.height < height then .error (.beyondLatest bs.height)
  else if height < bs.base then .error (.belowBase height bs.base)
  else
    let p := (bs.pruneLoop state height (height - bs.base).toNat).flush height bs.height
    .ok (p.writes, ⟨height, bs.height, p.db⟩, p.pruned, p.evidencePoint)

-- ==== deleting

/-- `DeleteLatestBlock`: the batch written, and the store afterwards. -/
def deleteLatestBlock : List Batch × BlockStore :=
  let targetHeight := bs.height
  let batch :=
    (match bs.loadBlockMeta targetHeight with
      | none => []
      | some m =>
        delete (.blockHash m.blockID.hash)
          :: (List.range m.blockID.partSetHeader.total).map fun p =>
              delete (.blockPart targetHeight p))
      ++ [delete (.blockCommit targetHeight),
        delete (.seenCommit targetHeight), delete (.blockMeta targetHeight)]
  let writes := [withState batch bs.base (targetHeight - 1)]
  (writes, ⟨bs.base, targetHeight - 1, bs.db.writeAll writes⟩)

end BlockStore

-- ==== runs

inductive Op where
  | saveBlock (block : Block) (blockParts : PartSet) (seenCommit : Commit)
  | saveBlockWithExtendedCommit (block : Block) (blockParts : PartSet)
      (seenExtendedCommit : ExtendedCommit)
  | pruneBlocks (height : Int) (state : BlockStore.EvidenceAge)
  | deleteLatestBlock

/-- What an operation writes, and the store afterwards; nothing where it
fails, which is before its first write. -/
def BlockStore.perform (enc : BlockEncoding) (bs : BlockStore) :
    Op → Option (List Batch × BlockStore)
  | .saveBlock block blockParts seenCommit =>
    (bs.saveBlock enc block blockParts seenCommit).toOption
  | .saveBlockWithExtendedCommit block blockParts seenExtendedCommit =>
    (bs.saveBlockWithExtendedCommit enc block blockParts seenExtendedCommit).toOption
  | .pruneBlocks height state => (bs.pruneBlocks height state).toOption.map fun r => (r.1, r.2.1)
  | .deleteLatestBlock => some bs.deleteLatestBlock

/-- A block with its parts, as it was given to be saved. -/
structure Saved where
  block : Block
  parts : PartSet

/-- What an operation that has been completed has saved. -/
def Op.saves : Op → Option Saved
  | .saveBlock block blockParts _ => some ⟨block, blockParts⟩
  | .saveBlockWithExtendedCommit block blockParts _ => some ⟨block, blockParts⟩
  | _ => none

/-- An operation, and the number of its writes after which the process
crashes, if it does. -/
structure Step where
  op : Op
  crash : Option Nat := none

/-- A store, with the block that was last saved for each height. -/
structure Session where
  store : BlockStore
  saved : Int → Option Saved

namespace Session

def start : Session := ⟨newBlockStore Database.empty, fun _ => none⟩

def remember (s : Session) (op : Op) : Int → Option Saved :=
  match op.saves with
  | none => s.saved
  | some saved => Function.update s.saved saved.block.height (some saved)

/-- An operation, or what it comes to before a crash, after which the store is
opened again. -/
def step (enc : BlockEncoding) (s : Session) (c : Step) : Session :=
  match s.store.perform enc c.op with
  | none => s
  | some (writes, store) =>
    match c.crash with
    | none => ⟨store, s.remember c.op⟩
    | some k =>
      ⟨newBlockStore (s.store.db.writeAll (writes.take k)),
        if writes.length ≤ k then s.remember c.op else s.saved⟩

def run (enc : BlockEncoding) (steps : List Step) : Session := steps.foldl (step enc) start

end Session

end HetuEngine.Blocks
