/-
The consensus of a local node (consensus/state.rs of hetu-consensus): one
validator that proposes, has its own proposal checked by the application and
commits it, driven by timeouts.

# Timeouts

`schedule_timeout` spawns a task that sleeps and then sends the timeout to
the node itself, so pending timeouts can arrive in any order: `pending` holds
them, and an event picks one by its position. Durations are left out, since
they only bear on that order.

# The application

The answers of the application, and the times `Time::now()` returns, come
with the event that needs them. `calls` records the calls of the application
with their blocks; nothing reads it.

# Errors

When `handle_timeout` fails, `receive_routine` and `start` return the error
and no further timeout is received. `Height::increment` panics at the largest
height.
-/
import HetuEngine.Lib.Fallible
import Mathlib.Algebra.Group.Nat.Defs

namespace HetuEngine.Local

open Lib

abbrev Height := Nat

abbrev Round := Nat

abbrev Time := Nat

abbrev Tx := List UInt8

/-- `Hash`; the empty one is `Hash::default()`. -/
abbrev Hash := List UInt8

abbrev Address := List UInt8

def Height.max : Height := 2 ^ 63 - 1

/-- `block::Id`, with the default part set header. -/
structure BlockId where
  hash : Hash

/-- `CommitSig::BlockIdFlagCommit`. -/
structure CommitSig where
  validatorAddress : Address
  timestamp : Time
  signature : List UInt8

structure Commit where
  height : Height
  round : Round
  blockId : BlockId
  signatures : List CommitSig

/-- `block::Header`, without the fields that are the same in all blocks. -/
structure Header where
  chainId : String
  height : Height
  time : Time
  lastBlockId : Option BlockId
  validatorsHash : Hash
  nextValidatorsHash : Hash
  proposerAddress : Address

structure Block where
  header : Header
  data : List Tx
  lastCommit : Option Commit

inductive RoundStep where
  | newHeight
  | newRound
  | propose
  | commit

structure TimeoutInfo where
  height : Height
  round : Round
  step : RoundStep

inductive ConsensusError where
  | invalidHeight (height : Height)
  | invalidProposal (msg : String)
  | other (msg : String)

inductive Stop where
  | error (e : ConsensusError)
  | panic

/-- `RoundState`, without the fields nothing reads. -/
structure RoundState where
  height : Height
  round : Round
  step : RoundStep
  startTime : Time
  commitTime : Time
  proposalBlock : Option Block

def statusAccept : Int := 1

/-- A call of the application, with the answer to `ProcessProposal`. -/
inductive Call where
  | prepareProposal (block : Block)
  | processProposal (block : Block) (resp : Except String Int)
  | finalizeBlock (block : Block)
  | commit

/-- What the application and the clock answer while one timeout is
handled. -/
structure Answers where
  startTime : Time
  commitTime : Time
  prepareProposal : Except String (List Tx)
  processProposal : Except String Int
  finalizeBlock : Except String Unit
  commit : Except String Unit

/-- `PrivValidatorKey`, with the signature of the proposal of a block. -/
structure PrivValidatorKey where
  address : Address
  signProposal : Header → Except String (List UInt8)

/-- What does not change: the state the node was made from, its
configuration, stores and validators. -/
structure Params where
  stateHeight : Height
  stateRound : Round
  chainId : Except String String
  proposer : Option Address
  validatorsHash : Hash
  lastBlockId : Except String (Option BlockId)
  /-- The checks of `Block::new`. -/
  checkBlock : Header → Option Commit → Except String Unit
  validatorKey : Option PrivValidatorKey

structure Machine where
  roundState : RoundState
  pending : List TimeoutInfo
  calls : List Call
  halted : Option Stop

abbrev Action (α : Type) := EStateM Stop Machine α

/-- `?` on a `cometbft` error. -/
def other {α : Type} (x : Except String α) : Except ConsensusError α := x.mapError .other

namespace Machine

def scheduleTimeout (step : RoundStep) (m : Machine) : Machine :=
  { m with pending := m.pending ++ [⟨m.roundState.height, m.roundState.round, step⟩] }

def call (c : Call) (m : Machine) : Machine := { m with calls := m.calls ++ [c] }

def setRoundState (f : RoundState → RoundState) (m : Machine) : Machine :=
  { m with roundState := f m.roundState }

end Machine

namespace Params

variable (p : Params)

def new (now : Time) : Machine where
  roundState :=
    { height := p.stateHeight
      round := p.stateRound
      step := .newHeight
      startTime := now
      commitTime := now
      proposalBlock := none }
  pending := []
  calls := []
  halted := none

def getProposer : Except ConsensusError Address :=
  match p.proposer with
  | none => throw (.other "no proposer found")
  | some proposer => return proposer

def headerLastBlockId (height : Height) : Except ConsensusError (Option BlockId) :=
  if height = p.stateHeight then return none else other p.lastBlockId

def createBlockHeader (startTime : Time) (height : Height) : Except ConsensusError Header := do
  let proposer ← p.getProposer
  let lastBlockId ← p.headerLastBlockId height
  let chainId ← other p.chainId
  return {
    chainId
    height
    time := startTime
    lastBlockId
    validatorsHash := p.validatorsHash
    nextValidatorsHash := p.validatorsHash
    proposerAddress := proposer }

/-- The last commit of a block. Its height goes through `u32`. -/
def lastCommit (height : Height) : Except ConsensusError (Option Commit) :=
  if height ≤ 1 then return none
  else do
    let blockId ← other p.lastBlockId
    return some {
      height := (height - 1) % 2 ^ 32
      round := 0
      blockId := blockId.getD ⟨[]⟩
      signatures := [] }

def createBlock (startTime : Time) (height : Height) : Except ConsensusError Block := do
  let header ← p.createBlockHeader startTime height
  let lastCommit ← p.lastCommit height
  other (p.checkBlock header lastCommit)
  return ⟨header, [], lastCommit⟩

/-- `sign_block`: the signature goes into the last commit, if there is
one. -/
def signBlock (key : PrivValidatorKey) (block : Block) : Except ConsensusError Block := do
  let signature ← (key.signProposal block.header).mapError
    fun e => .other ("failed to sign block: " ++ e)
  return { block with
    lastCommit := block.lastCommit.map fun c =>
      { c with signatures := [⟨key.address, block.header.time, signature⟩] } }

def prepareProposal (startTime : Time) (height : Height) : Except ConsensusError Block := do
  let _ ← p.getProposer
  let block ← p.createBlock startTime height
  match p.validatorKey with
  | some key => signBlock key block
  | none => return block

def enterNewHeight (now : Time) : Action Unit := do
  let m ← get
  if m.roundState.height + 1 ≤ Height.max then
    modify (Machine.setRoundState fun rs =>
      { rs with
        height := rs.height + 1
        round := 0
        step := .newHeight
        proposalBlock := none
        startTime := now })
    modify (Machine.scheduleTimeout .newHeight)
  else throw .panic

def enterNewRound (height : Height) (round : Round) (startTime commitTime : Time) : Action Unit :=
  modify (Machine.setRoundState fun rs =>
    { rs with
      height := height
      round := round
      step := .newRound
      proposalBlock := none
      startTime := startTime
      commitTime := commitTime })

def enterPropose (height : Height) (round : Round) : Action Unit := do
  let m ← get
  if height ≠ m.roundState.height ∨ round ≠ m.roundState.round then
    throw (.error (.invalidHeight height))
  else
    modify (Machine.setRoundState fun rs => { rs with step := .propose })
    let block ← Fallible.lift Stop.error
      (p.prepareProposal m.roundState.startTime m.roundState.height)
    modify (Machine.setRoundState fun rs => { rs with proposalBlock := some block })

/-- `enter_commit`; its `save_block` only prints. -/
def enterCommit (height : Height) (now : Time) : Action Unit := do
  let m ← get
  if height ≠ m.roundState.height then throw (.error (.invalidHeight height))
  else
    modify (Machine.setRoundState fun rs => { rs with step := .commit })
    match m.roundState.proposalBlock with
    | none => throw (.error (.invalidProposal "No proposal block"))
    | some _ => modify (Machine.setRoundState fun rs => { rs with commitTime := now })

def commitBlock (block : Block) (a : Answers) : Action Unit := do
  modify (Machine.call (.finalizeBlock block))
  Fallible.lift Stop.error (other a.finalizeBlock)
  modify (Machine.call .commit)
  Fallible.lift Stop.error (other a.commit)
  modify (Machine.setRoundState fun rs =>
    { rs with
      height := block.header.height
      step := .newHeight
      round := 0
      proposalBlock := none })

def onNewHeight (t : TimeoutInfo) (a : Answers) : Action Unit := do
  enterNewRound t.height t.round a.startTime a.commitTime
  p.enterPropose t.height t.round
  modify (Machine.scheduleTimeout .propose)

def onPropose (t : TimeoutInfo) (a : Answers) : Action Unit := do
  let m ← get
  match m.roundState.proposalBlock with
  | none => throw (.error (.invalidProposal "No proposal block"))
  | some block =>
    modify (Machine.call (.prepareProposal block))
    let txs ← Fallible.lift Stop.error (other a.prepareProposal)
    let block := { block with data := txs }
    modify (Machine.call (.processProposal block a.processProposal))
    let status ← Fallible.lift Stop.error (other a.processProposal)
    if status = statusAccept then
      modify (Machine.setRoundState fun rs => { rs with proposalBlock := some block })
      enterCommit t.height a.commitTime
      modify (Machine.scheduleTimeout .commit)
    else return ()

def onCommit (a : Answers) : Action Unit := do
  let m ← get
  match m.roundState.proposalBlock with
  | none => throw (.error (.invalidProposal "No proposal block in commit"))
  | some block =>
    commitBlock block a
    enterNewHeight a.startTime
    modify (Machine.scheduleTimeout .newHeight)

def handleTimeout (t : TimeoutInfo) (a : Answers) : Action Unit := do
  let m ← get
  if t.height ≠ m.roundState.height ∨ t.round ≠ m.roundState.round then return ()
  else match t.step with
    | .newHeight => p.onNewHeight t a
    | .propose => onPropose t a
    | .commit => onCommit a
    | .newRound => return ()

/-- `start`, up to its loop. -/
def start (now : Time) : Action Unit := do
  enterNewHeight now
  modify (Machine.scheduleTimeout .newHeight)

end Params

/-- The state after a function, which stops there if it failed. -/
def perform (m : Action Unit) (s : Machine) : Machine :=
  match m s with
  | .ok _ s' => s'
  | .error e s' => { s' with halted := some e }

/-- One of the pending timeouts is received. -/
structure Event where
  index : Nat
  answers : Answers

namespace Params

variable (p : Params)

def step (m : Machine) (e : Event) : Machine :=
  match m.halted, m.pending[e.index]? with
  | none, some t =>
    perform (p.handleTimeout t e.answers)
      { m with pending := m.pending.eraseIdx e.index }
  | _, _ => m

def started (created now : Time) : Machine := perform (start now) (p.new created)

def run (created now : Time) (es : List Event) : Machine := es.foldl p.step (p.started created now)

lemma run_concat (created now : Time) (es : List Event) (e : Event) :
    p.run created now (es ++ [e]) = p.step (p.run created now es) e :=
  List.foldl_append

end Params

end HetuEngine.Local
