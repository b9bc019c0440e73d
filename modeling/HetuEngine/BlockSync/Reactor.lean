/-
Block sync (blocksync/reactor.go of hetu-cometbft), and what consensus makes
of the stored blocks when it starts (consensus/state.go).

A block that was fetched is checked with the last commit of the block after
it, saved with a commit and applied. With vote extensions the commit that is
saved is the extended one that came with the block, otherwise the last commit
of the block after it. When consensus starts, it makes a vote set of the
commit of the last block, and panics if it cannot.

What `CheckEvidence` says and what the application answers are parameters.
-/
import HetuEngine.BlockSync.Pool
import HetuEngine.Blocks.State
import HetuEngine.Blocks.Store

namespace HetuEngine.BlockSync

open Lib Comet EvidencePool Blocks

variable {P : Type} [DecidableEq P]

-- ==== starting consensus

inductive ReconstructError where
  /-- "extended commit for height %v not found", "commit for height %v not
  found" -/
  | notFound
  /-- "heights don't match in votesFromExtendedCommit %v!=%v", "heights don't
  match in votesFromSeenCommit %v!=%v" -/
  | heights
  /-- "extended commit does not have +2/3 majority", "commit does not have
  +2/3 majority" -/
  | noMajority
  /-- A panic of `VoteExtensionsEnabled`, `ToVoteSet` or
  `ToExtendedVoteSet`. -/
  | panic (p : CommitPanic)
  deriving DecidableEq

def votesFromExtendedCommit (c : Crypto) (store : BlockStore)
    (state : Blocks.State) : Except ReconstructError VoteSet :=
  match store.loadBlockExtendedCommit state.lastBlockHeight with
  | none => .error .notFound
  | some ec =>
    if ec.height ≠ state.lastBlockHeight then .error .heights
    else
      match ec.toExtendedVoteSet c state.chainID state.lastValidators with
      | .error p => .error (.panic p)
      | .ok vs => if vs.maj23.isNone then .error .noMajority else .ok vs

def votesFromSeenCommit (c : Crypto) (store : BlockStore)
    (state : Blocks.State) : Except ReconstructError VoteSet :=
  match store.loadSeenCommit state.lastBlockHeight
      <|> store.loadBlockCommit state.lastBlockHeight with
  | none => .error .notFound
  | some commit =>
    if commit.height ≠ state.lastBlockHeight then .error .heights
    else
      match commit.toVoteSet c state.chainID state.lastValidators with
      | .error p => .error (.panic p)
      | .ok vs => if vs.maj23.isNone then .error .noMajority else .ok vs

/-- `reconstructLastCommit`; every error is a panic. -/
def reconstructLastCommit (c : Crypto) (store : BlockStore)
    (state : Blocks.State) : Except ReconstructError VoteSet :=
  match state.consensusParams.abci.voteExtensionsEnabled state.lastBlockHeight with
  | .error p => .error (.panic p)
  | .ok false => votesFromSeenCommit c store state
  | .ok true => votesFromExtendedCommit c store state

-- ==== the routine

inductive SavedCommit where
  | seen (commit : Commit)
  | extended (extCommit : ExtendedCommit)

/-- A block that was saved: by which validators it should have been
committed, its id and height, and the commit it was saved with. -/
structure SavedBlock where
  validators : ValidatorSet
  blockID : BlockID
  height : Int
  commit : SavedCommit

/-- The reactor: the pool, and what `poolRoutine` works on, with all that it
has saved. -/
structure Reactor (P : Type) where
  pool : BlockPool P Blocks.Block ExtendedCommit
  state : Blocks.State
  store : BlockStore
  saves : List SavedBlock
  /-- A panic has stopped the process. -/
  halted : Bool

def idOf (enc : BlockEncoding) (block : Blocks.Block) (parts : PartSet) :
    BlockID :=
  ⟨block.hash enc, parts.header⟩

/-- The checks of `poolRoutine`. A panic of a check counts as a rejection:
nothing is saved in either case. -/
def accepts (c : Verifier) (enc : StateEncoding) (state : Blocks.State)
    (first second : Blocks.Block) (firstID : BlockID)
    (extCommit : Option ExtendedCommit) (evidenceOk : Bool) (extensionsEnabled : Bool) : Bool :=
  (verifyCommitLight c state.chainID state.validators firstID first.height second.lastCommit).isOk
    && (validateBlock c enc state first).isOk && evidenceOk
    && extCommit.isSome = extensionsEnabled && (!extensionsEnabled || extCommit.all fun ec =>
        (ExtendedCommit.ensureExtensions true ec.extendedSignatures).isOk)

/-- Save the first block, with the commit for it: there is an extended commit
if extensions are enabled, and only then. -/
def saveFirst (enc : StateEncoding) (store : BlockStore)
    (first second : Blocks.Block) (firstParts : PartSet) :
    Option ExtendedCommit → Except BlockStore.SaveError (BlockStore × SavedCommit)
  | some ec =>
    match store.saveBlockWithExtendedCommit enc.toBlockEncoding first firstParts ec with
    | .error e => .error e
    | .ok (_, store') => .ok (store', .extended ec)
  | none =>
    match store.saveBlock enc.toBlockEncoding first firstParts second.lastCommit with
    | .error e => .error e
    | .ok (_, store') => .ok (store', .seen second.lastCommit)

-- ==== leaving block sync

/-- `localNodeBlocksTheChain`; the third is truncated. -/
def localNodeBlocksTheChain (localAddr : Bytes) (state : Blocks.State) : Bool :=
  match state.validators.getByAddress localAddr with
  | none => false
  | some (_, val) => state.validators.totalVotingPower.tdiv 3 ≤ val.votingPower

/-- The last block needs an extended commit, and there is none. -/
def missingExtension (blocksSynced : Nat) (initialCommitHasExtensions : Bool)
    (state : Blocks.State) : Except CommitPanic Bool :=
  if state.lastBlockHeight = 0 then .ok false
  else
    (state.consensusParams.abci.voteExtensionsEnabled state.lastBlockHeight).map fun enabled =>
      enabled && !(0 < blocksSynced || initialCommitHasExtensions)

/-- Whether `poolRoutine` switches to consensus when the ticker for it
fires. -/
def switchesToConsensus (localAddr : Bytes) (blocksSynced : Nat) (initialCommitHasExtensions : Bool)
    (pool : BlockPool P Blocks.Block ExtendedCommit) (state : Blocks.State) (now : Time) :
    Except CommitPanic Bool :=
  (missingExtension blocksSynced initialCommitHasExtensions state).map fun missing =>
    !missing && (pool.isCaughtUp now || localNodeBlocksTheChain localAddr state)

namespace Reactor

def start (pool : BlockPool P Blocks.Block ExtendedCommit) (state : Blocks.State)
    (store : BlockStore) : Reactor P :=
  ⟨pool, state, store, [], false⟩

/-- `poolRoutine` when both blocks are there and consecutive, from the parts
of the first one on. -/
def processParts (c : Verifier) (enc : StateEncoding) (r : Reactor P)
    (first second : Blocks.Block) (firstParts : PartSet) (extCommit : Option ExtendedCommit)
    (evidenceOk : Bool) (resp : FinalizeResponse) (now : Time) : Reactor P :=
  let firstID := idOf enc.toBlockEncoding first firstParts
  match r.state.consensusParams.abci.voteExtensionsEnabled first.height with
  | .error _ => { r with halted := true }
  | .ok extensionsEnabled =>
    if !accepts c enc r.state first second firstID extCommit evidenceOk extensionsEnabled then
      { r with
        pool := (r.pool.removePeerAndRedoAllPeerRequests first.height
          now).removePeerAndRedoAllPeerRequests second.height now }
    else
      match saveFirst enc r.store first second firstParts extCommit with
      | .error _ => { r with pool := r.pool.popRequest, halted := true }
      | .ok (store, commit) =>
        let saves := r.saves ++ [⟨r.state.validators, firstID, first.height, commit⟩]
        let pool := r.pool.popRequest
        match applyVerifiedBlock c enc r.state firstID first resp with
        | .error _ => ⟨pool, r.state, store, saves, true⟩
        | .ok state => ⟨pool, state, store, saves, r.halted⟩

/-- `poolRoutine`, when it is told to process blocks. -/
def process (c : Verifier) (enc : StateEncoding) (r : Reactor P)
    (evidenceOk : Bool) (resp : FinalizeResponse) (now : Time) : Reactor P :=
  match r.pool.peekTwoBlocks with
  | (some first, some second, extCommit) =>
    if 0 < r.state.lastBlockHeight ∧ r.state.lastBlockHeight + 1 ≠ first.height then
      { r with halted := true }
    else if first.height + 1 ≠ second.height then { r with halted := true }
    else
      match first.makePartSet enc.toBlockEncoding with
      | none => { r with halted := true }
      | some firstParts =>
        r.processParts c enc first second firstParts extCommit evidenceOk resp now
  | _ => r

/-- What happens to the reactor: peers announce heights, leave and send
blocks, the pool makes requests and forgets what came, and blocks are
processed. -/
inductive Event (P : Type) where
  | setPeerRange (peerID : P) (base height : Int) (now : Time)
  | removePeer (peerID : P)
  | makeNextRequester (nextHeight : Int)
  | pickPeers (height : Int) (peerID secondPeerID : Option P)
  | reset (height : Int) (peerID : P)
  | addBlock (peerID : P) (block : Blocks.Block) (extCommit : Option ExtendedCommit)
  | process (evidenceOk : Bool) (resp : FinalizeResponse) (now : Time)

/-- One event; after a panic nothing happens any more. -/
def step (c : Verifier) (enc : StateEncoding) (r : Reactor P) : Event P → Reactor P := fun event =>
  if r.halted then r
  else
    match event with
    | .setPeerRange peerID base height now =>
      { r with pool := r.pool.setPeerRange peerID base height now }
    | .removePeer peerID => { r with pool := r.pool.removePeer peerID }
    | .makeNextRequester nextHeight => { r with pool := r.pool.makeNextRequester nextHeight }
    | .pickPeers height peerID secondPeerID =>
      { r with pool := r.pool.pickPeers height peerID secondPeerID }
    | .reset height peerID => { r with pool := r.pool.resetRequester height peerID }
    | .addBlock peerID block extCommit =>
      match r.pool.addBlock Blocks.Block.height ExtendedCommit.height peerID
          block
          extCommit with
      | .error _ => r
      | .ok pool => { r with pool := pool }
    | .process evidenceOk resp now => r.process c enc evidenceOk resp now

def run (c : Verifier) (enc : StateEncoding) (r : Reactor P)
    (events : List (Event P)) : Reactor P :=
  events.foldl (step c enc) r

end Reactor

end HetuEngine.BlockSync
