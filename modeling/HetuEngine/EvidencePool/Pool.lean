/-
The evidence pool (evidence/pool.go of hetu-cometbft): evidence that waits
to be put into a block, and what has been committed.

The database has two kinds of keys, made of the height and the hash of the
evidence; an iteration over the pending ones goes by height, and then by
hash. Here the pending evidence is a list in that order, and the committed
evidence a set of keys. `evidenceList` is what the reactor sends to peers.
-/
import HetuEngine.EvidencePool.Verify

namespace HetuEngine.EvidencePool

open Comet

-- ==== the store

abbrev Key := Int × Bytes

/-- `keySuffix`, of `keyPending` and `keyCommitted`. -/
def Evidence.key (enc : Encoding) (ev : Evidence) : Key := (ev.height, ev.hash enc)

/-- The order of the keys in the database. -/
def Key.before (a b : Key) : Bool := a.1 < b.1 || (a.1 = b.1 && decide (a.2 < b.2))

/-- The evidence that `EvidenceFromProto` makes of what `EvidenceToProto`
wrote: a slice that is nil comes back empty. -/
def Evidence.stored : Evidence → Evidence
  | .duplicateVote dve => .duplicateVote dve
  | .lightClientAttack l =>
    .lightClientAttack { l with byzantineValidators := some (l.byzantineValidators.getD []) }

def Evidence.isLight : Evidence → Bool
  | .duplicateVote _ => false
  | .lightClientAttack _ => true

def setPending (enc : Encoding) (ev : Evidence) : List Evidence → List Evidence
  | [] => [ev]
  | e :: rest =>
    if e.key enc = ev.key enc then ev :: rest
    else if Key.before (ev.key enc) (e.key enc) then ev :: e :: rest
    else e :: setPending enc ev rest

structure Pool where
  /-- `state`, `stateDB` and `blockStore` -/
  node : Node
  pending : List Evidence
  committed : List Key
  evidenceList : List Evidence
  evidenceSize : UInt32
  consensusBuffer : List (Vote × Vote)
  pruningHeight : Int
  pruningTime : Time

namespace Pool

def isPending (enc : Encoding) (pool : Pool) (ev : Evidence) : Bool :=
  pool.pending.any fun e => e.key enc = ev.key enc

def isCommitted (enc : Encoding) (pool : Pool) (ev : Evidence) : Bool :=
  pool.committed.contains (ev.key enc)

def isExpired (node : Node) (height : Int) (time : Time) : Bool :=
  node.params.maxAgeNumBlocks < node.lastBlockHeight - height
    && node.params.maxAgeDuration < node.lastBlockTime - time

def addPendingEvidence (enc : Encoding) (pool : Pool) (ev : Evidence) : Pool :=
  { pool with
    pending := setPending enc ev.stored pool.pending
    evidenceSize := pool.evidenceSize + 1 }

/-- `removePendingEvidence`, and what `removeEvidenceFromList` does for the
evidence when its callers are through: the list is cleaned by hash alone. -/
def removePendingEvidence (enc : Encoding) (pool : Pool) (ev : Evidence) :
    Pool :=
  { pool with
    pending := pool.pending.filter fun e => e.key enc ≠ ev.key enc
    evidenceList := pool.evidenceList.filter fun e => e.hash enc ≠ ev.hash enc
    evidenceSize := pool.evidenceSize - 1 }

def pushBack (pool : Pool) (ev : Evidence) : Pool :=
  { pool with evidenceList := pool.evidenceList ++ [ev] }

-- ==== expired evidence

def second : Int := 10 ^ 9

/-- The loop of `removeExpiredPendingEvidence`: the pool, and when evidence
will have expired next. Evidence that does not decode is passed over. -/
def removeExpiredLoop (c : Crypto) (enc : Encoding) : List Evidence → Pool → Pool × Int × Time
  | [], pool => (pool, pool.node.lastBlockHeight, pool.node.lastBlockTime)
  | ev :: rest, pool =>
    if !ev.validateBasic c enc then removeExpiredLoop c enc rest pool
    else if !isExpired pool.node ev.height ev.time then
      (pool, ev.height + pool.node.params.maxAgeNumBlocks + 1,
        ev.time + pool.node.params.maxAgeDuration + second)
    else removeExpiredLoop c enc rest (pool.removePendingEvidence enc ev)

/-- `removeExpiredPendingEvidence`, and the assignments to `pruningHeight`
and `pruningTime`. -/
def removeExpiredPendingEvidence (c : Crypto) (enc : Encoding) (pool : Pool) : Pool :=
  let (pool', height, time) := removeExpiredLoop c enc pool.pending pool
  { pool' with pruningHeight := height, pruningTime := time }

/-- The loop of `listEvidence`, nothing on an error: what has been listed so
far is measured together with the next one. -/
def listEvidenceLoop (c : Crypto) (enc : Encoding) (size : List Evidence → Int) (maxBytes : Int) :
    List Evidence → List Evidence → Option (List Evidence)
  | [], listed => some listed
  | ev :: rest, listed =>
    if maxBytes ≠ -1 ∧ maxBytes < size (listed ++ [ev]) then some listed
    else if !ev.validateBasic c enc then none
    else listEvidenceLoop c enc size maxBytes rest (listed ++ [ev])

/-- `PendingEvidence`, where `size` is that of an encoded `EvidenceList`. -/
def pendingEvidence (c : Crypto)
    (enc : Encoding) (size : List Evidence → Int) (pool : Pool) (maxBytes : Int) : List Evidence :=
  if pool.evidenceSize = 0 then []
  else (listEvidenceLoop c enc size maxBytes pool.pending []).getD []

-- ==== what changes a pool

def addEvidence (c : Verifier) (enc : Encoding) (pool : Pool)
    (ev : Evidence) : Except EvidenceError Pool :=
  if pool.isPending enc ev then .ok pool
  else if pool.isCommitted enc ev then .ok pool
  else
    match pool.node.verify c enc ev with
    | .error e => .error e
    | .ok () => .ok ((pool.addPendingEvidence enc ev).pushBack ev)

def reportConflictingVotes (pool : Pool) (voteA voteB : Vote) : Pool :=
  { pool with consensusBuffer := pool.consensusBuffer ++ [(voteA, voteB)] }

inductive CheckError where
  /-- "evidence was already committed" -/
  | alreadyCommitted
  /-- "duplicate evidence" -/
  | duplicate
  | invalid (err : EvidenceError)
  deriving DecidableEq

/-- One turn of `CheckEvidence`, up to the check for duplicates. -/
def checkOne (c : Verifier) (enc : Encoding) (pool : Pool) (ev : Evidence) :
    Except CheckError Pool :=
  if ev.isLight || !pool.isPending enc ev then
    if pool.isCommitted enc ev then .error .alreadyCommitted
    else
      match pool.node.verify c enc ev with
      | .error e => .error (.invalid e)
      | .ok () => .ok (pool.addPendingEvidence enc ev)
  else .ok pool

/-- The loop of `CheckEvidence`, with the hashes so far. The pool keeps what
was added before an error. -/
def checkLoop (c : Verifier) (enc : Encoding) :
    List Evidence → List Bytes → Pool → Pool × Except CheckError Unit
  | [], _, pool => (pool, .ok ())
  | ev :: rest, hashes, pool =>
    match pool.checkOne c enc ev with
    | .error e => (pool, .error e)
    | .ok pool' =>
      if hashes.contains (ev.hash enc) then (pool', .error .duplicate)
      else checkLoop c enc rest (hashes ++ [ev.hash enc]) pool'

def checkEvidence (c : Verifier) (enc : Encoding) (pool : Pool)
    (evList : List Evidence) : Pool × Except CheckError Unit :=
  checkLoop c enc evList [] pool

/-- The evidence that `processConsensusBuffer` makes of a pair of votes; the
state is the new one already. -/
def bufferedEvidence (node : Node) (votes : Vote × Vote) : Option DuplicateVoteEvidence :=
  if votes.1.height = node.lastBlockHeight then
    newDuplicateVoteEvidence votes.1 votes.2 node.lastBlockTime node.lastValidators
  else if votes.1.height < node.lastBlockHeight then
    match node.loadValidators votes.1.height with
    | none => none
    | some valSet =>
      match node.loadBlockMeta votes.1.height with
      | none => none
      | some header => newDuplicateVoteEvidence votes.1 votes.2 header.time valSet
  else none

def processVotes (enc : Encoding) (node : Node) (pool : Pool) (votes : Vote × Vote) : Pool :=
  match bufferedEvidence node votes with
  | none => pool
  | some dve =>
    let ev := Evidence.duplicateVote dve
    if pool.isPending enc ev then pool
    else if pool.isCommitted enc ev then pool
    else (pool.addPendingEvidence enc ev).pushBack ev

def processConsensusBuffer (enc : Encoding) (node : Node) (pool : Pool) :
    Pool :=
  { pool.consensusBuffer.foldl (processVotes enc node) pool with consensusBuffer := [] }

def markCommitted (enc : Encoding) (pool : Pool) (ev : Evidence) : Pool :=
  let pool' := if pool.isPending enc ev then pool.removePendingEvidence enc ev else pool
  { pool' with committed := ev.key enc :: pool'.committed }

def markEvidenceAsCommitted (enc : Encoding) (pool : Pool) (evidence : List Evidence) : Pool :=
  evidence.foldl (markCommitted enc) pool

/-- What `Update` does before it prunes. The new state comes with the stores
as they are by then. -/
def updated (enc : Encoding) (pool : Pool) (node : Node) (evidence : List Evidence) : Pool :=
  { pool.processConsensusBuffer enc node with node := node }
    |>.markEvidenceAsCommitted enc evidence

def prunes (pool : Pool) : Bool :=
  pool.evidenceSize ≠ 0 && pool.pruningHeight < pool.node.lastBlockHeight
    && pool.pruningTime < pool.node.lastBlockTime

/-- `Update`, nothing on a panic. -/
def update (c : Crypto) (enc : Encoding) (pool : Pool) (node : Node)
    (evidence : List Evidence) : Option Pool :=
  if node.lastBlockHeight ≤ pool.node.lastBlockHeight then none
  else
    let pool' := pool.updated enc node evidence
    some (if pool'.prunes then pool'.removeExpiredPendingEvidence c enc else pool')

/-- `NewPool`, on what the database has; nothing on an error. -/
def new (c : Crypto) (enc : Encoding) (node : Node)
    (pending : List Evidence) (committed : List Key) : Option Pool :=
  let pool := removeExpiredPendingEvidence c enc ⟨node, pending, committed, [], 0, [], 0, zeroTime⟩
  match listEvidenceLoop c enc (fun _ => 0) (-1) pool.pending [] with
  | none => none
  | some evList =>
    some { pool with evidenceList := evList, evidenceSize := UInt32.ofNat evList.length }

-- ==== runs

inductive Call where
  | addEvidence (ev : Evidence)
  | checkEvidence (evList : List Evidence)
  | reportConflictingVotes (voteA voteB : Vote)
  | update (node : Node) (evidence : List Evidence)
  /-- The node stores a block, or prunes its stores. -/
  | store (stores : Stores)
  /-- The node is restarted: `NewPool` on the database as it is. -/
  | restart (node : Node)

/-- The pool after a call, nothing if the process ends. A call that fails
leaves the pool as it has become. -/
def call (c : Verifier) (enc : Encoding) (pool : Pool) : Call → Option Pool
  | .addEvidence ev =>
    match pool.addEvidence c enc ev with
    | .ok pool' => some pool'
    | .error e => if e.isPanic then none else some pool
  | .checkEvidence evList =>
    match pool.checkEvidence c enc evList with
    | (pool', .error (.invalid e)) => if e.isPanic then none else some pool'
    | (pool', _) => some pool'
  | .reportConflictingVotes voteA voteB => some (pool.reportConflictingVotes voteA voteB)
  | .update node evidence => pool.update c.toCrypto enc node evidence
  | .store stores => some { pool with node := { pool.node with
      toStores := stores } }
  | .restart node => new c.toCrypto enc node pool.pending pool.committed

def run (c : Verifier) (enc : Encoding) (pool : Pool) : List Call → Option Pool
  | [] => some pool
  | call :: calls =>
    match pool.call c enc call with
    | none => none
    | some pool' => pool'.run c enc calls

def empty (node : Node) : Pool :=
  ⟨node, [], [], [], 0, [], node.lastBlockHeight, node.lastBlockTime⟩

end Pool

end HetuEngine.EvidencePool
