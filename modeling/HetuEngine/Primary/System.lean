/-
A primary: the core and the tasks around it, as one state machine.

# The tasks

  - The core takes messages of other primaries, headers and certificates
    that were suspended, and the headers of our own proposer.
  - The `HeaderWaiter` (primary/src/header_waiter.rs) keeps headers whose
    parents or batches are missing and returns each of them to the core
    when the store has what was missing.
  - The `CertificateWaiter` (primary/src/certificate_waiter.rs) does the
    same for certificates whose parents are missing.
  - The `PayloadReceiver` (primary/src/payload_receiver.rs) marks batches in
    the store, and the `GarbageCollector`
    (primary/src/garbage_collector.rs) raises the consensus round.

An `Event` is a thing a task can do next. `Node.step` does it, or nothing if
it is not possible in the state. A run is a list of events, so it is any
interleaving of the tasks. One turn of the core is one event: between two
awaits of a turn another task can only mark a batch that the core would
notice, and the core reads each marker once.

The proposer is the environment: its headers are made by `Header::new` with
our key, from any round, payload and parents. Channels are unbounded
queues.

# Cancelling

A header in the `HeaderWaiter` waits for the store and for its cancel
channel. The sending end of the channel is in `pending`; the cleanup sends on
it and drops it, and dropping it alone also wakes the receiver. So a waiter is
cancelled exactly when its channel is no longer in `pending`. When the store
is ready too, either may win.
-/
import HetuEngine.Primary.Core

namespace HetuEngine.Primary

open Lib Lib.Fallible Narwhal

-- ==== header waiter

inductive Request where
  /-- To a worker of the header's author. -/
  | synchronize (author : PublicKey) (worker : Nat) (digests : List Digest)
  /-- To the primary of the header's author. -/
  | certificates (author : PublicKey) (digests : List Digest)
  /-- To some of the other primaries. -/
  | retry (digests : List Digest)

/-- A future of `waiter`: its cancel channel, the keys it waits for and the
header it delivers. -/
structure Waiter where
  channel : Nat
  waitFor : List Key
  deliver : Header

/-- The state of the `HeaderWaiter`; `channels` counts the cancel channels
made. -/
structure HeaderWaiter where
  pending : HashMap Digest (Nat × Nat)
  waiting : List Waiter
  channels : Nat
  batchRequests : HashMap Digest Nat
  parentRequests : HashMap Digest (Nat × Nat)
  requests : List Request

namespace HeaderWaiter

def init : HeaderWaiter := ⟨∅, [], 0, ∅, ∅, []⟩

def add (keys : List Key) (header : Header) (w : HeaderWaiter) : HeaderWaiter :=
  { w with
    pending := w.pending.insert header.id (header.round, w.channels)
    waiting := w.waiting ++ [⟨w.channels, keys, header⟩]
    channels := w.channels + 1 }

def send (r : Request) (w : HeaderWaiter) : HeaderWaiter := { w with requests := w.requests ++ [r] }

/-- One missing batch: unless it was requested before, it is noted and
added to the digests for its worker. -/
def requestBatch (round : Nat) (acc : HashMap Digest Nat × HashMap Nat (List Digest))
    (e : Digest × Nat) : HashMap Digest Nat × HashMap Nat (List Digest) :=
  match acc.1.lookup e.1 with
  | some _ => acc
  | none => (acc.1.insert e.1 round, acc.2.insert e.2 ((acc.2.lookup e.2).getD [] ++ [e.1]))

/-- One missing parent: unless it was requested before, it is noted and
added to the digests to request. -/
def requestParent (round now : Nat) (acc : HashMap Digest (Nat × Nat) × List Digest)
    (digest : Digest) : HashMap Digest (Nat × Nat) × List Digest :=
  match acc.1.lookup digest with
  | some _ => acc
  | none => (acc.1.insert digest (round, now), acc.2 ++ [digest])

/-- Whether the cancel channel of a waiter is still open. -/
def alive (w : HeaderWaiter) (x : Waiter) : Bool :=
  w.pending.lookup x.deliver.id = some (x.deliver.round, x.channel)

/-- What a header waited for was found: it leaves the pool, and its
requests are forgotten. -/
def finish (i : Nat) (header : Header) (w : HeaderWaiter) : HeaderWaiter :=
  { w with
    waiting := w.waiting.eraseIdx i
    pending := w.pending.erase header.id
    batchRequests := header.payload.keys.foldl (fun m x => m.erase x) w.batchRequests
    parentRequests := header.parents.toList.foldl (fun m x => m.erase x) w.parentRequests }

end HeaderWaiter

namespace Setup

variable (p : Setup)

/-- Request batches from the workers that have them. -/
def requestBatches (author : PublicKey) :
    List (Sigma fun _ : Nat => List Digest) → EStateM Panic HeaderWaiter Unit
  | [] => return ()
  | ⟨worker, digests⟩ :: rest => do
      if p.committee.worker author worker then
        modify (HeaderWaiter.send (.synchronize author worker digests))
        requestBatches author rest
      else throw .notInCommittee

/-- What the `HeaderWaiter` does with a message; false when it goes on
without a cleanup, because the header is already waiting. -/
def waitHeader (now : Nat) : WaiterMessage → EStateM Panic HeaderWaiter Bool
  | .syncBatches missing header => do
      let w ← get
      if (w.pending.lookup header.id).isSome then return false
      else
        modify (HeaderWaiter.add (missing.map fun e => .payload e.1 e.2) header)
        let (batchRequests, requiresSync) := missing.foldl
          (HeaderWaiter.requestBatch header.round) (w.batchRequests, ∅)
        modify fun w => { w with batchRequests }
        p.requestBatches header.author requiresSync.entries
        return true
  | .syncParents missing header => do
      let w ← get
      if (w.pending.lookup header.id).isSome then return false
      else
        modify (HeaderWaiter.add (missing.map .digest) header)
        let (parentRequests, requiresSync) := missing.foldl
          (HeaderWaiter.requestParent header.round now)
          (w.parentRequests, [])
        modify fun w => { w with parentRequests }
        if requiresSync = [] then return true
        else if p.committee.primary header.author then
          modify (HeaderWaiter.send (.certificates header.author requiresSync))
          return true
        else throw .notInCommittee

/-- The timer: requests that were not answered in time are sent again. -/
def retryRequests (now : Nat) (w : HeaderWaiter) : HeaderWaiter :=
  w.send (.retry ((w.parentRequests.entries.filter fun e =>
    e.2.2 + p.syncRetryDelay < now).map Sigma.fst))

/-- The cleanup of the `HeaderWaiter`: old headers are cancelled. -/
def cleanupWaiter (consensusRound : Nat) (w : HeaderWaiter) : HeaderWaiter :=
  if p.gcDepth < consensusRound then
    let gcRound := consensusRound - p.gcDepth
    { w with
      pending := HashMap.retain (fun _ x => if gcRound < x.1 then some x else none) w.pending
      batchRequests := HashMap.retain
        (fun _ r => if gcRound < r then some r else none) w.batchRequests
      parentRequests := HashMap.retain (fun _ x => if gcRound < x.1 then some x else none)
        w.parentRequests }
  else w

end Setup

-- ==== the node

inductive Event where
  /-- The core takes a message of another primary. -/
  | message (message : Message)
  /-- The core takes a header from the `HeaderWaiter`. -/
  | loopHeader
  /-- The core takes a certificate from the `CertificateWaiter`. -/
  | loopCertificate
  /-- The core takes a header of our proposer. -/
  | own (round : Fin (2 ^ 64)) (payload : BTreeMap Digest Nat) (parents : BTreeSet Digest)
  /-- The `PayloadReceiver` marks a batch. -/
  | batch (digest : Digest) (worker : Nat)
  /-- The `GarbageCollector` learns of a committed certificate. -/
  | commit (certificate : Certificate)
  /-- The `HeaderWaiter` takes a message. -/
  | waitHeader (now : Nat)
  /-- The header at a position has what it waited for. -/
  | releaseHeader (i : Nat)
  /-- The header at a position was cancelled. -/
  | cancelHeader (i : Nat)
  /-- The timer of the `HeaderWaiter`. -/
  | retry (now : Nat)
  /-- The `CertificateWaiter` takes a certificate. -/
  | waitCertificate
  /-- The certificate at a position has what it waited for. -/
  | releaseCertificate (i : Nat)

/-- The state of a primary. The two `aborted` fields say where a task
ended. -/
structure Node where
  core : Core
  consensusRound : Nat
  headerWaiter : HeaderWaiter
  certificateWaiter : List Certificate
  rxHeaderWaiter : List Header
  rxCertificateWaiter : List Certificate
  aborted : Option Panic
  waiterAborted : Option Panic

namespace Node

def init : Node where
  core := Core.init
  consensusRound := 0
  headerWaiter := HeaderWaiter.init
  certificateWaiter := []
  rxHeaderWaiter := []
  rxCertificateWaiter := []
  aborted := none
  waiterAborted := none

end Node

namespace Setup

variable (p : Setup)

/-- One turn of the core: an error is logged, and the cleanup follows. -/
def turn (action : Action Unit) (node : Node) : Node :=
  if node.aborted.isSome then node
  else match action node.core with
    | .error (.panic q) s => { node with core := s, aborted := some q }
    | .error (.error _) s => { node with core := p.cleanup node.consensusRound s }
    | .ok _ s => { node with core := p.cleanup node.consensusRound s }

def waiterTurn (now : Nat) (m : WaiterMessage) (node : Node) : Node :=
  match p.waitHeader now m node.headerWaiter with
  | .error q w => { node with headerWaiter := w, waiterAborted := some q }
  | .ok true w => { node with headerWaiter := p.cleanupWaiter node.consensusRound w }
  | .ok false w => { node with headerWaiter := w }

/-- The header at a position of the pool goes back to the core if the store
has what it waits for. -/
def releaseHeader (i : Nat) (node : Node) : Node :=
  match node.headerWaiter.waiting[i]? with
  | none => node
  | some x =>
    if x.waitFor.all node.core.stored then
      { node with
        headerWaiter := p.cleanupWaiter node.consensusRound (node.headerWaiter.finish i x.deliver)
        rxHeaderWaiter := node.rxHeaderWaiter ++ [x.deliver] }
    else node

/-- The header at a position of the pool goes if it was cancelled. -/
def cancelHeader (i : Nat) (node : Node) : Node :=
  match node.headerWaiter.waiting[i]? with
  | none => node
  | some x =>
    if node.headerWaiter.alive x then node
    else
      { node with
        headerWaiter := p.cleanupWaiter node.consensusRound
          { node.headerWaiter with
            waiting := node.headerWaiter.waiting.eraseIdx i } }

end Setup

namespace Node

/-- The certificate at a position of the pool goes back to the core if the
store has all its parents. -/
def releaseCertificate (node : Node) (i : Nat) : Node :=
  match node.certificateWaiter[i]? with
  | none => node
  | some c =>
    if c.header.parents.toList.all fun d => node.core.stored (.digest d)
    then
      { node with
        certificateWaiter := node.certificateWaiter.eraseIdx i
        rxCertificateWaiter := node.rxCertificateWaiter ++ [c] }
    else node

def step (p : Setup) (node : Node) : Event → Node
  | .message m => p.turn (p.handle m) node
  | .loopHeader =>
    match node.rxHeaderWaiter with
    | [] => node
    | h :: hs => p.turn (p.processHeader h)
        { node with rxHeaderWaiter := hs }
  | .loopCertificate =>
    match node.rxCertificateWaiter with
    | [] => node
    | c :: cs => p.turn (p.processCertificate c)
        { node with rxCertificateWaiter := cs }
  | .own round payload parents =>
    p.turn (p.processOwnHeader (Header.new p.crypto p.name round payload parents)) node
  | .batch digest worker => { node with core := node.core.write (.payload digest worker) .marker }
  | .commit certificate =>
    if node.consensusRound < certificate.round then
      { node with consensusRound := certificate.round }
    else node
  | .waitHeader now =>
    match node.core.txHeaderWaiter with
    | [] => node
    | m :: ms =>
      if node.waiterAborted.isSome then node
      else p.waiterTurn now m
        { node with core := { node.core with txHeaderWaiter := ms } }
  | .releaseHeader i => if node.waiterAborted.isSome then node else p.releaseHeader i node
  | .cancelHeader i => if node.waiterAborted.isSome then node else p.cancelHeader i node
  | .retry now =>
    if node.waiterAborted.isSome then node
    else
      { node with
        headerWaiter := p.cleanupWaiter node.consensusRound
          (p.retryRequests now node.headerWaiter) }
  | .waitCertificate =>
    match node.core.txCertificateWaiter with
    | [] => node
    | c :: cs =>
      { node with
        core := { node.core with txCertificateWaiter := cs }
        certificateWaiter := node.certificateWaiter ++ [c] }
  | .releaseCertificate i => node.releaseCertificate i

def run (p : Setup) (es : List Event) : Node := es.foldl (step p) init

lemma run_concat (p : Setup) (es : List Event) (e : Event) :
    run p (es ++ [e]) = step p (run p es) e := by
  unfold run
  rw [List.foldl_append]
  rfl

end Node

-- ==== a small committee

namespace Quad

/-- A hash that spells its input in base 257; the one signature there is
is valid, all others are not. -/
def spell : Crypto where
  sha512 bytes := Fin.ofNat _ (bytes.foldl (fun n b => 257 * n + b.toNat + 1) 0)
  sign _ _ := 0
  verify signature _ _ := signature = 0
  verifyBatch _ votes := votes.all fun v => v.2 = 0

/-- Four authorities of stake 1, three of which are a quorum. -/
def committee : Committee where
  authorities :=
    { entries := [0, 1, 2, 3].map fun name => (name, ⟨1, [0], unit_stake_lt⟩), sorted := by decide }

def setup : Setup where
  crypto := spell
  name := 3
  committee := committee
  gcDepth := 50
  syncRetryDelay := 5000

/-- A header with the given parents, and a batch of worker 0 if any. -/
def headerOf (author : PublicKey) (round : Fin (2 ^ 64))
    (batch : Option Digest) (parents : List Certificate) : Header :=
  Header.new spell author round (match batch with
      | some digest => ⟨[(digest, 0)], List.pairwise_singleton _ _⟩
      | none => BTreeMap.empty)
    (BTreeSet.ofList (parents.map (Certificate.digest spell)))

/-- The votes of the first three authorities. -/
def quorum : List (PublicKey × Signature) := [(0, 0), (1, 0), (2, 0)]

end Quad

end HetuEngine.Primary
