/-
The block pool of block sync (blocksync/pool.go of hetu-cometbft): the peers
with the heights they claim, and one requester for each height that is being
fetched.

The pool looks only at the heights of blocks and extended commits; the rest
is the reactor's business. A requester has a goroutine that does later what
`removePeer` tells it through `redoCh`, so forgetting the block of a removed
peer (`reset`) is an operation of its own here, as is picking a peer.
-/
import HetuEngine.Comet.VoteSet

namespace HetuEngine.BlockSync

open Lib Comet

-- ==== the state

/-- `bpPeer`: the range of blocks the peer claims to have. -/
structure Peer where
  base : Int
  height : Int

/-- `bpRequester`: whom the block of a height was requested from, and what
came. -/
structure Requester (P B E : Type) where
  peerID : Option P
  secondPeerID : Option P
  gotBlockFrom : Option P
  block : Option B
  extCommit : Option E

structure BlockPool (P B E : Type) where
  startTime : Time
  startHeight : Int
  requesters : HashMap Int (Requester P B E)
  height : Int
  peers : HashMap P Peer
  bannedPeers : HashMap P Time
  maxPeerHeight : Int

variable {P B E : Type} [DecidableEq P]

namespace Requester

def new : Requester P B E := ⟨none, none, none, none, none⟩

/-- `setBlock`: the requester afterwards, or nothing if the block was not
requested from the peer. The second of two blocks is not looked at. -/
def setBlock (bpr : Requester P B E) (block : B) (extCommit : Option E)
    (peerID : P) : Option (Requester P B E) :=
  if bpr.peerID ≠ some peerID ∧ bpr.secondPeerID ≠ some peerID then none
  else if bpr.block.isSome then some bpr
  else some { bpr with block := some block, extCommit := extCommit, gotBlockFrom := some peerID }

def reset (bpr : Requester P B E) (peerID : P) : Requester P B E :=
  let bpr' := if bpr.gotBlockFrom = some peerID then
      { bpr with block := none, extCommit := none, gotBlockFrom := none }
    else bpr
  if bpr.peerID = some peerID then { bpr' with peerID := none }
  else { bpr' with secondPeerID := none }

end Requester

namespace BlockPool

def new (start : Int) (startTime : Time) : BlockPool P B E where
  startTime := startTime
  startHeight := start
  requesters := ∅
  height := start
  peers := ∅
  bannedPeers := ∅
  maxPeerHeight := 0

-- ==== peers

/-- `isPeerBanned`: for a minute. -/
def isPeerBanned (pool : BlockPool P B E) (peerID : P) (now : Time) : Bool :=
  match pool.bannedPeers.lookup peerID with
  | some since => now - since < 60 * 10 ^ 9
  | none => false

/-- The peer's claim is recorded and the biggest height raised. -/
def recordRange (pool : BlockPool P B E) (peerID : P) (base height : Int) : BlockPool P B E :=
  { pool with
    peers := pool.peers.insert peerID ⟨base, height⟩
    maxPeerHeight := if pool.maxPeerHeight < height then height else pool.maxPeerHeight }

def setPeerRange (pool : BlockPool P B E) (peerID : P) (base height : Int)
    (now : Time) : BlockPool P B E :=
  match pool.peers.lookup peerID with
  | some _ => pool.recordRange peerID base height
  | none =>
    if pool.isPeerBanned peerID now then pool
    else pool.recordRange peerID base height

/-- The loop of `updateMaxPeerHeight`. -/
def biggestHeight (peers : List Peer) : Int :=
  peers.foldl (fun max peer => if max < peer.height then peer.height else max)
    0

def updateMaxPeerHeight (pool : BlockPool P B E) : BlockPool P B E :=
  { pool with maxPeerHeight := biggestHeight pool.peers.values }

def removePeer (pool : BlockPool P B E) (peerID : P) : BlockPool P B E :=
  match pool.peers.lookup peerID with
  | none => pool
  | some peer =>
    let pool' := { pool with peers := pool.peers.erase peerID }
    if peer.height = pool.maxPeerHeight then pool'.updateMaxPeerHeight
    else pool'

def isCaughtUp (pool : BlockPool P B E) (now : Time) : Bool :=
  if pool.peers.entries.length = 0 then false
  else
    let receivedBlockOrTimedOut := 0 < pool.height || 5 * 10 ^ 9 < now - pool.startTime
    let ourChainIsLongestAmongPeers :=
      pool.maxPeerHeight = 0 || pool.maxPeerHeight - 1 ≤ pool.height
    receivedBlockOrTimedOut && ourChainIsLongestAmongPeers

-- ==== blocks

def makeNextRequester (pool : BlockPool P B E) (nextHeight : Int) : BlockPool P B E :=
  { pool with requesters := pool.requesters.insert nextHeight Requester.new }

/-- What a requester does on its own: it picks peers and forgets blocks. -/
def changeRequester (pool : BlockPool P B E) (height : Int)
    (f : Requester P B E → Requester P B E) : BlockPool P B E :=
  match pool.requesters.lookup height with
  | none => pool
  | some bpr => { pool with requesters := pool.requesters.insert height (f bpr) }

/-- The assignments of `pickPeerAndSendRequest` and
`pickSecondPeerAndSendRequest`. -/
def pickPeers (pool : BlockPool P B E) (height : Int)
    (peerID secondPeerID : Option P) : BlockPool P B E :=
  pool.changeRequester height fun bpr => { bpr with peerID := peerID, secondPeerID := secondPeerID }

def resetRequester (pool : BlockPool P B E) (height : Int) (peerID : P) : BlockPool P B E :=
  pool.changeRequester height fun bpr => bpr.reset peerID

inductive AddBlockError where
  /-- "block height %d != extCommit height %d" -/
  | extCommitHeight
  /-- "peer sent us block #%d we didn't expect (current height: %d, start
  height: %d)" -/
  | unexpected
  /-- "got an already committed block #%d (possibly from the slow peer
  %s)" -/
  | alreadyCommitted
  /-- "requested block #%d from %v, not %s" -/
  | notRequested

/-- `AddBlock`, over the heights of blocks and extended commits. -/
def addBlock (blockHeight : B → Int) (commitHeight : E → Int) (pool : BlockPool P B E)
    (peerID : P) (block : B) (extCommit : Option E) : Except AddBlockError (BlockPool P B E) :=
  let height := blockHeight block
  if extCommit.any fun ec => height ≠ commitHeight ec then .error .extCommitHeight
  else
    match pool.requesters.lookup height with
    | none =>
      if pool.height < height ∨ height < pool.startHeight then .error .unexpected
      else .error .alreadyCommitted
    | some requester =>
      match requester.setBlock block extCommit peerID with
      | none => .error .notRequested
      | some requester' => .ok { pool with requesters := pool.requesters.insert height requester' }

def peekTwoBlocks (pool : BlockPool P B E) : Option B × Option B × Option E :=
  let first := pool.requesters.lookup pool.height
  let second := pool.requesters.lookup (pool.height + 1)
  (first.bind (·.block), second.bind (·.block), first.bind (·.extCommit))

def popRequest (pool : BlockPool P B E) : BlockPool P B E :=
  { pool with requesters := pool.requesters.erase pool.height, height := pool.height + 1 }

def removePeerAndRedoAllPeerRequests (pool : BlockPool P B E) (height : Int)
    (now : Time) : BlockPool P B E :=
  match (pool.requesters.lookup height).bind (·.gotBlockFrom) with
  | none => pool
  | some peerID =>
    let pool' := pool.removePeer peerID
    { pool' with bannedPeers := pool'.bannedPeers.insert peerID now }

end BlockPool

end HetuEngine.BlockSync
