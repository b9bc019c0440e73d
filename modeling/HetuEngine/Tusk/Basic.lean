/-
The consensus task (consensus/src/lib.rs): it receives certificates, keeps
them in a DAG, and writes a sequence of certificates to its output.

# What one certificate does

`Consensus.receive` is one turn of the loop in `run`. The certificate goes
into the DAG; if its round is odd and at least 5, the leader three rounds
below it is looked up; if enough of the next round references that leader,
the leader is committed, and before it every older leader it is linked to
(`orderLeaders`). Committing a leader flattens its sub-DAG (`orderDag`) and
records each certificate of it (`State.update`), which also prunes the DAG.

# Machine arithmetic and aborts

Rounds are `u64` and the release build does not check overflow, so sums of
rounds are reduced (`u64`) and `round - 1` wraps at round 0. The task can
abort at the two `expect("We should have the whole history by now")` and at
the remainder by the committee's size; a function that contains one of them
returns `Except Panic`.

# Ghost data

The task's output is the list of certificates written. `Commit` also records
which leader each part of the output belongs to, and the state in which that
leader's sub-DAG was flattened. No definition below reads the records back.
-/
import HetuEngine.Lib.Worklist
import HetuEngine.Narwhal.Messages
import Mathlib.Data.List.Sort

namespace HetuEngine.Tusk

open Lib Lib.Weight Narwhal

/-- The representation of the DAG in memory: by round and author, the
certificate with its digest. -/
abbrev Dag := HashMap Nat (HashMap PublicKey (Digest × Certificate))

inductive Panic where
  /-- "We should have the whole history by now". -/
  | wholeHistory
  /-- The remainder by the size of an empty committee. -/
  | emptyCommittee

structure State where
  lastCommittedRound : Nat
  lastCommitted : HashMap PublicKey Nat
  dag : Dag

/-- One leader's part of the output: the state before it was flattened, the
leader, and the certificates written for it. -/
structure Commit where
  state : State
  leader : Certificate
  sequence : List Certificate

namespace State

def new (cr : Crypto) (genesis : List Certificate) : State :=
  let genesis := HashMap.collect (genesis.map fun x => (x.origin, (x.digest cr, x)))
  { lastCommittedRound := 0
    lastCommitted := HashMap.collect (genesis.entries.map fun e => (e.1, e.2.2.round))
    dag := HashMap.collect [(0, genesis)] }

/-- The cleanup of one round for one authority whose last committed round is
`round`: the authority's certificate goes when the round is older, and the
round goes when it is empty or beyond the garbage collection depth. -/
def pruneRound (gcDepth lastCommittedRound : Nat) (name : PublicKey) (round : Nat) (r : Nat)
    (authorities : HashMap PublicKey (Digest × Certificate)) :
    Option (HashMap PublicKey (Digest × Certificate)) :=
  let authorities := HashMap.retain
    (fun n x => if n ≠ name ∨ round ≤ r then some x else none) authorities
  if authorities.entries ≠ [] ∧ lastCommittedRound ≤ u64 (r + gcDepth) then some authorities
  else none

def prune (gcDepth lastCommittedRound : Nat)
    (lastCommitted : HashMap PublicKey Nat) (dag : Dag) : Dag :=
  lastCommitted.entries.foldl (fun dag e =>
      HashMap.retain (pruneRound gcDepth lastCommittedRound e.1 e.2) dag)
    dag

/-- `State::update`: record a committed certificate and clean up. -/
def update (s : State) (certificate : Certificate) (gcDepth : Nat) : State :=
  let round := match s.lastCommitted.lookup certificate.origin with
    | some r => max r certificate.round
    | none => certificate.round
  let lastCommitted := s.lastCommitted.insert certificate.origin round
  let lastCommittedRound := (HashMap.values lastCommitted).foldl max 0
  { lastCommittedRound
    lastCommitted
    dag := prune gcDepth lastCommittedRound lastCommitted s.dag }

end State

/-- The parameters of the task: hash function, committee and garbage
collection depth. -/
structure Consensus where
  crypto : Crypto
  committee : Committee
  gcDepth : Nat

namespace Consensus

variable (cn : Consensus)

def genesis : List Certificate := Certificate.genesis cn.committee

/-- The authority that leads a round: round-robin over the keys, which the
committee's map holds in order. -/
def leaderKey (round : Nat) : Except Panic PublicKey :=
  match cn.committee.authorities.keys[round % cn.committee.size]? with
  | some name => .ok name
  | none => .error .emptyCommittee

/-- `leader`: the certificate of the authority that leads the round, if
any. -/
def leader (round : Nat) (dag : Dag) : Except Panic (Option (Digest × Certificate)) := do
  let name ← cn.leaderKey round
  return (dag.lookup round).bind fun x => x.lookup name

-- ==== linked

/-- The certificates of a round that some certificate of a list names as a
parent. -/
def parentsIn (authorities : HashMap PublicKey (Digest × Certificate))
    (children : List Certificate) : List Certificate :=
  ((HashMap.values authorities).filter fun x =>
    children.any fun c => decide (x.1 ∈ c.header.parents)).map Prod.snd

/-- The loop of `linked`: from round `lo + k` down to round `lo`. -/
def parentsDown (dag : Dag) (lo : Nat) : Nat → List Certificate → Except Panic (List Certificate)
  | 0, parents => .ok parents
  | k + 1, parents =>
    match dag.lookup (lo + k) with
    | none => .error .wholeHistory
    | some authorities => parentsDown dag lo k (parentsIn authorities parents)

/-- `linked`: whether there is a path between two leaders. -/
def linked (leader prevLeader : Certificate) (dag : Dag) : Except Panic Bool := do
  let parents ← parentsDown dag prevLeader.round (leader.round - prevLeader.round) [leader]
  return parents.any fun x => x.partialEq prevLeader

-- ==== order_leaders

/-- `(lo..=hi).rev().step_by(2)`. -/
def leaderRounds (lo hi : Nat) : List Nat :=
  (List.range ((hi + 2 - lo) / 2)).map fun i => hi - 2 * i

/-- The loop of `order_leaders`, with the leader last added and the leaders
to commit so far. -/
def orderLeadersFrom (dag : Dag) : List Nat → Certificate → List Certificate →
      Except Panic (List Certificate)
  | [], _, toCommit => .ok toCommit
  | r :: rs, leader, toCommit => do
      match ← cn.leader r dag with
      | none => orderLeadersFrom dag rs leader toCommit
      | some (_, prevLeader) =>
        if ← linked leader prevLeader dag then
          orderLeadersFrom dag rs prevLeader (toCommit ++ [prevLeader])
        else orderLeadersFrom dag rs leader toCommit

/-- `order_leaders`: the past leaders that we did not already commit, the
newest first. -/
def orderLeaders (leader : Certificate) (state : State) : Except Panic (List Certificate) :=
  cn.orderLeadersFrom state.dag
    (leaderRounds (u64 (state.lastCommittedRound + 2)) (u64Sub leader.round 2)) leader [leader]

-- ==== order_dag

/-- The certificate a parent digest of `x` refers to, if it is in the round
below `x` and is not the last one committed for its author. -/
def parentOf (state : State) (x : Certificate) (parent : Digest) :
    Option (Digest × Certificate) := do
  let authorities ← state.dag.lookup (u64Sub x.round 1)
  let y ← (HashMap.values authorities).find? fun y => y.1 = parent
  if state.lastCommitted.lookup y.2.origin = some y.2.round then none
  else some y

/-- What `order_dag` considers when it visits an item: the certificates its
parent digests refer to, in digest order. -/
def dagChildren (state : State) (x : Digest × Certificate) : List (Digest × Certificate) :=
  x.2.header.parents.toList.filterMap (parentOf state x.2)

def dagSize (dag : Dag) : Nat := ((HashMap.values dag).map fun x => x.entries.length).sum

/-- `order_dag`: the depth-first walk from the leader, cut at the garbage
collection depth and stably sorted by round. The walk visits a certificate
of the DAG at most once (`orderDag_yields`), so its loop has as many turns
as the DAG has certificates, and one for the leader. -/
def orderDag (leader : Certificate) (state : State) : List Certificate :=
  let walk := Worklist.run Prod.fst (dagChildren state)
    (leader.digest cn.crypto, leader) (dagSize state.dag + 1)
  ((walk.ordered.map Prod.snd).filter fun x =>
      state.lastCommittedRound ≤ u64 (x.round + cn.gcDepth)).insertionSort
    fun a b => a.round ≤ b.round

-- ==== run

/-- Flatten the leaders of a list in turn, recording each certificate. -/
def commitLeaders : State → List Certificate → State × List Commit
  | state, [] => (state, [])
  | state, leader :: leaders =>
    let sequence := cn.orderDag leader state
    let state' := sequence.foldl (fun s x => s.update x cn.gcDepth) state
    let rest := commitLeaders state' leaders
    (rest.1, { state, leader, sequence } :: rest.2)

def insert (state : State) (certificate : Certificate) : State :=
  let authorities := (state.dag.lookup certificate.round).getD ∅
  { state with
    dag := state.dag.insert certificate.round (authorities.insert certificate.origin
        (certificate.digest cn.crypto, certificate)) }

/-- The stake of the certificates of a round that reference the leader,
summed in `u32`. -/
def support (authorities : HashMap PublicKey (Digest × Certificate))
    (leaderDigest : Digest) : Nat :=
  u32 (((HashMap.values authorities).filter fun x =>
    leaderDigest ∈ x.2.header.parents).map fun x => cn.committee.stake x.2.origin).sum

/-- The commit rule, once the certificate is in the DAG, with `r` the round
below it: the state after it and what was committed. -/
def tryCommit (state : State) (r : Nat) : Except Panic (State × List Commit) := do
  if r % 2 ≠ 0 ∨ r < 4 then return (state, [])
  let leaderRound := r - 2
  if leaderRound ≤ state.lastCommittedRound then return (state, [])
  match ← cn.leader leaderRound state.dag with
  | none => return (state, [])
  | some (leaderDigest, leader) =>
    match state.dag.lookup (r - 1) with
    | none => throw .wholeHistory
    | some authorities =>
      if cn.support authorities leaderDigest < cn.committee.validityThreshold then
        return (state, [])
      let leaders ← cn.orderLeaders leader state
      return cn.commitLeaders state leaders.reverse

def receive (state : State) (certificate : Certificate) : Except Panic (State × List Commit) :=
  cn.tryCommit (cn.insert state certificate) (u64Sub certificate.round 1)

end Consensus

-- ==== runs

/-- The task with its history: the state, what was committed so far, and
why it stopped, if it did. -/
structure Node where
  state : State
  commits : List Commit
  aborted : Option Panic

namespace Node

def init (cn : Consensus) : Node where
  state := State.new cn.crypto cn.genesis
  commits := []
  aborted := none

/-- The task receives a certificate. A task that aborted does nothing. -/
def step (cn : Consensus) (node : Node) (certificate : Certificate) : Node :=
  match node.aborted with
  | some _ => node
  | none =>
    match cn.receive node.state certificate with
    | .ok (state, commits) => { node with state, commits := node.commits ++ commits }
    | .error e => { node with aborted := some e }

def run (cn : Consensus) (stream : List Certificate) : Node := stream.foldl (step cn) (init cn)

def output (node : Node) : List Certificate := node.commits.flatMap Commit.sequence

def leaders (node : Node) : List Certificate := node.commits.map Commit.leader

end Node

end HetuEngine.Tusk
