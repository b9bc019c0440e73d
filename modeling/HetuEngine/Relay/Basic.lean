/-
The relay of committed batches (`analyze`, node/src/main.rs).

# The tasks

  - The certificate processor reads the batches of each committed
    certificate from the stores of the workers (`process_certificate`) and
    sends them on, one by one.
  - The broadcaster encodes a batch, takes the lock on the connections to
    count them, and passes the bytes on together with that count. With no
    connection the batch is dropped.
  - The broadcast handler takes the lock again. If the number of
    connections is no longer the count it got, it skips the batch; else it
    sends the bytes to the channel of every client and keeps the lock until
    all of them took the bytes.
  - The accept loop puts the channel of a new client in the map, under the
    client's address. Each client has a writer, which empties the channel
    into the socket, and a reader, which waits for the end of the
    connection. Both remove the address from the map when they end.

An `Event` is a thing a task can do next. `step` does it, or nothing if it is
not possible in the state, as when the task waits. A run is a list of events,
so it is any interleaving of the tasks.

# What is added

A batch is known by its position in the sequence of all batches sent, since
the same transactions may be sent twice. `sent` keeps that sequence and
`checks` what the handler found each time it took the lock; no task reads
them. A client is known by its position among all connections accepted.

The store, its decoding and the encoding of a batch are parameters. The
channels between the tasks are never closed: no task that holds an end of
one returns.
-/
import HetuEngine.Narwhal.Messages

namespace HetuEngine.Relay

open Lib Narwhal

/-- The bytes of a transaction, a stored value or a frame (`Vec<u8>`). -/
abbrev Bytes := List UInt8

def channelCapacity : Nat := 1000

/-- The address of a client; the listener is bound to an IPv4 address. -/
structure SocketAddr where
  ip : BitVec 32
  port : BitVec 16
deriving DecidableEq

-- ==== reading a batch

inductive Read where
  | failed
  | absent
  | found (bytes : Bytes)

/-- The store of a worker: whether it can be opened, and its answers, by
attempt. -/
structure Database where
  opens : Bool
  get : Nat → Read

inductive ReadError where
  /-- The error of the store itself. -/
  | database
  /-- "digest not found after {} attempts". -/
  | notFound (attempts : Nat)

/-- The attempts from number `attempt` on, of which `left` are left. -/
def readAttempts (get : Nat → Read) : (left attempt : Nat) → Except ReadError Bytes
  | 0, attempt => .error (.notFound attempt)
  | left + 1, attempt =>
    match get attempt with
    | .failed => .error .database
    | .found bytes => .ok bytes
    | .absent => readAttempts get left (attempt + 1)

/-- `reconstruct_batch`: up to three attempts to read a batch. -/
def reconstructBatch (db : Database) : Except ReadError Bytes :=
  if db.opens then readAttempts db.get 3 0 else .error .database

/-- The code of other crates the relay calls. -/
structure Codec where
  /-- `bincode::deserialize` as a `WorkerMessage`: the transactions of a
  batch, or nothing. -/
  deserialize : Bytes → Option (List Bytes)
  /-- `BatchTransactions::encode_to_vec`, of the transactions and the
  round. -/
  encode : List Bytes → Nat → Bytes

/-- What `process_certificate` does with one entry of the payload. -/
inductive Fetched where
  /-- Go on with the next one. -/
  | skip
  /-- Return: "Unrecognized message format". -/
  | bail
  | send (transactions : List Bytes)

/-- One round of the loop of `process_certificate`. -/
def Codec.fetch (codec : Codec) (db : Database) : Fetched :=
  match reconstructBatch db with
  | .error _ => .skip
  | .ok bytes =>
    match codec.deserialize bytes with
    | none => .bail
    | some [] => .skip
    | some (tx :: txs) => .send (tx :: txs)

-- ==== the tasks

structure Batch where
  index : Nat
  transactions : List Bytes
  round : Nat

structure Frame where
  index : Nat
  bytes : Bytes
deriving DecidableEq

def Codec.frame (codec : Codec) (b : Batch) : Frame :=
  ⟨b.index, codec.encode b.transactions b.round⟩

/-- The certificate processor: what is left of the payload of the current
certificate, and the round of that certificate. -/
structure Processor where
  todo : List (Digest × Nat)
  round : Nat

inductive Broadcaster where
  | idle
  /-- Waits for the lock. -/
  | encoded (frame : Frame)
  /-- Waits for room in the channel to the handler. -/
  | sampled (frame : Frame) (connCount : Nat)

inductive Handler where
  | idle
  /-- Waits for the lock. -/
  | waiting (frame : Frame) (expectedCount : Nat)
  /-- Holds the lock, with the clients that still have to get the frame. -/
  | sending (frame : Frame) (rest : Finset Nat)

inductive Writer where
  | running
  /-- Out of its loop, waiting for the lock; with the frame whose writing
  failed, if that is why. -/
  | leaving (lost : Option Frame)
  /-- Done. -/
  | ended (lost : Option Frame)

/-- A client: its address, its channel, what was written to its socket, its
writer, and whether its reader still reads. -/
structure Client where
  addr : SocketAddr
  queue : List Frame
  written : List Frame
  writer : Writer
  reading : Bool

def Client.new (addr : SocketAddr) : Client := ⟨addr, [], [], .running, true⟩

def Client.push (frame : Frame) (c : Client) : Client := { c with queue := c.queue ++ [frame] }

/-- Whether the receiving end of the client's channel is gone. It goes with
the writer, after the address was removed from the map. -/
def Client.ended (c : Client) : Bool :=
  match c.writer with
  | .ended _ => true
  | _ => false

structure Check where
  frame : Frame
  expected : Nat
  actual : Nat
  targets : Finset Nat

structure State where
  processor : Processor
  rxTransactions : List Batch
  broadcaster : Broadcaster
  rxBroadcast : List (Frame × Nat)
  handler : Handler
  activeConnections : HashMap SocketAddr Nat
  clients : List Client
  sent : List Batch
  checks : List Check

inductive Event where
  /-- The processor takes a committed certificate. -/
  | certificate (certificate : Certificate)
  /-- The processor reads the next batch and sends it. -/
  | fetch (db : Database)
  /-- The broadcaster takes a batch and encodes it. -/
  | receive
  /-- The broadcaster counts the connections. -/
  | sample
  /-- The broadcaster passes the frame on. -/
  | forward
  /-- The handler takes a frame. -/
  | take
  /-- The handler takes the lock and compares the counts. -/
  | check
  /-- The handler sends to a client; the order of the clients is that of a
  hash map. -/
  | deliver (k : Nat)
  /-- The handler is done with all clients and releases the lock. -/
  | release
  /-- A client connects. -/
  | accept (addr : SocketAddr)
  /-- The writer of a client writes a frame, which may fail. -/
  | write (k : Nat) (ok : Bool)
  /-- The writer of a client finds its channel closed. -/
  | finish (k : Nat)
  /-- The writer of a client removes the connection. -/
  | removeWriter (k : Nat)
  /-- The reader of a client, at the end of the connection, removes it. -/
  | removeReader (k : Nat)

namespace State

def init : State where
  processor := ⟨[], 0⟩
  rxTransactions := []
  broadcaster := .idle
  rxBroadcast := []
  handler := .idle
  activeConnections := ∅
  clients := []
  sent := []
  checks := []

def connCount (s : State) : Nat := s.activeConnections.entries.length

def targets (s : State) : Finset Nat := (HashMap.values s.activeConnections).toFinset

/-- Whether somebody holds the lock between two events: only the handler
keeps it across an await. -/
def locked (s : State) : Bool :=
  match s.handler with
  | .sending _ _ => true
  | _ => false

def updateClient (s : State) (k : Nat) (f : Client → Client) : State :=
  { s with clients := s.clients.modify k f }

def remove (s : State) (addr : SocketAddr) : State :=
  { s with activeConnections := s.activeConnections.erase addr }

def send (s : State) (transactions : List Bytes) : State :=
  let batch : Batch := ⟨s.sent.length, transactions, s.processor.round⟩
  { s with rxTransactions := s.rxTransactions ++ [batch], sent := s.sent ++ [batch] }

/-- The processor leaves the rest of the payload for later. -/
def goOn (s : State) (todo : List (Digest × Nat)) : State :=
  { s with processor := ⟨todo, s.processor.round⟩ }

/-- The handler has the lock: it skips the frame if the number of
connections has changed. -/
def runCheck (s : State) (frame : Frame) (expectedCount : Nat) : State :=
  { s with
    handler :=
      if s.connCount ≠ expectedCount then .idle
      else .sending frame s.targets
    checks := s.checks ++ [⟨frame, expectedCount, s.connCount, s.targets⟩] }

/-- One send of the handler: it fails if the receiver is gone, and waits if
the channel is full. -/
def runDeliver (s : State) (frame : Frame) (rest : Finset Nat) (k : Nat) :
    State :=
  match s.clients[k]? with
  | none => s
  | some c =>
    if c.ended then { s with handler := .sending frame (rest.erase k) }
    else if c.queue.length < channelCapacity then
      { s.updateClient k (Client.push frame) with handler := .sending frame (rest.erase k) }
    else s

/-- One turn of the loop of a client's writer. -/
def runWrite (s : State) (k : Nat) (ok : Bool) : State :=
  match s.clients[k]? with
  | some ⟨_, frame :: _, _, .running, _⟩ =>
    s.updateClient k fun c =>
      if ok then { c with queue := c.queue.tail, written := c.written ++ [frame] }
      else { c with queue := c.queue.tail, writer := .leaving (some frame) }
  | _ => s

def step (codec : Codec) (s : State) : Event → State
  | .certificate certificate =>
    match s.processor.todo with
    | [] => { s with processor := ⟨certificate.header.payload.entries, certificate.header.round⟩ }
    | _ :: _ => s
  | .fetch db =>
    match s.processor.todo with
    | [] => s
    | _ :: todo =>
      match codec.fetch db with
      | .skip => s.goOn todo
      | .bail => s.goOn []
      | .send transactions =>
        if s.rxTransactions.length < channelCapacity then (s.send transactions).goOn todo
        else s
  | .receive =>
    match s.broadcaster, s.rxTransactions with
    | .idle, batch :: batches =>
      { s with broadcaster := .encoded (codec.frame batch), rxTransactions := batches }
    | _, _ => s
  | .sample =>
    match s.broadcaster with
    | .encoded frame =>
      if s.locked then s
      else if 0 < s.connCount then { s with broadcaster := .sampled frame s.connCount }
      else { s with broadcaster := .idle }
    | _ => s
  | .forward =>
    match s.broadcaster with
    | .sampled frame connCount =>
      if s.rxBroadcast.length < channelCapacity then
        { s with broadcaster := .idle, rxBroadcast := s.rxBroadcast ++ [(frame, connCount)] }
      else s
    | _ => s
  | .take =>
    match s.handler, s.rxBroadcast with
    | .idle, (frame, expectedCount) :: rest =>
      { s with handler := .waiting frame expectedCount, rxBroadcast := rest }
    | _, _ => s
  | .check =>
    match s.handler with
    | .waiting frame expectedCount => s.runCheck frame expectedCount
    | _ => s
  | .deliver k =>
    match s.handler with
    | .sending frame rest => if k ∈ rest then s.runDeliver frame rest k else s
    | _ => s
  | .release =>
    match s.handler with
    | .sending _ rest => if rest = ∅ then { s with handler := .idle } else s
    | _ => s
  | .accept addr =>
    if s.locked then s
    else
      { s with
        activeConnections := s.activeConnections.insert addr s.clients.length
        clients := s.clients ++ [Client.new addr] }
  | .write k ok => s.runWrite k ok
  | .finish k =>
    -- the channel is closed once its sender is no longer in the map
    match s.clients[k]? with
    | some ⟨_, [], _, .running, _⟩ =>
      if k ∈ s.targets then s
      else s.updateClient k fun c => { c with writer := .leaving none }
    | _ => s
  | .removeWriter k =>
    match s.clients[k]? with
    | some ⟨addr, _, _, .leaving lost, _⟩ =>
      if s.locked then s
      else (s.remove addr).updateClient k fun c => { c with writer := .ended lost }
    | _ => s
  | .removeReader k =>
    match s.clients[k]? with
    | some ⟨addr, _, _, _, true⟩ =>
      if s.locked then s
      else (s.remove addr).updateClient k fun c => { c with reading := false }
    | _ => s

def runFrom (codec : Codec) (s : State) (es : List Event) : State := es.foldl (step codec) s

def run (codec : Codec) (es : List Event) : State := runFrom codec init es

lemma run_concat (codec : Codec) (es : List Event) (e : Event) :
    run codec (es ++ [e]) = step codec (run codec es) e :=
  List.foldl_append

end State

-- ==== small relays

namespace Duo

/-- A stored batch is one transaction, and a frame is its transactions
followed by the round. -/
def codec : Codec where
  deserialize bytes := some [bytes]
  encode transactions round := transactions.flatten ++ [UInt8.ofNat round]

def certificate : Certificate where
  header := { Header.default with
    round := 1
    payload := ⟨[(5, 0)], List.pairwise_singleton _ _⟩
    round_lt := one_lt_u64 }
  votes := []

def addr (port : BitVec 16) : SocketAddr := ⟨0x7f000001, port⟩

def db : Database := ⟨true, fun _ => .found [7]⟩

def passOn : List Event := [.certificate certificate, .fetch db, .receive, .sample, .forward]

/-- A client connects before that. -/
def passedOn : List Event := .accept (addr 40000) :: passOn

def served : List Event := passedOn ++ [.take, .check, .deliver 0, .release]

def crowded : List Event := passedOn ++ [.accept (addr 40001), .take, .check]

end Duo

end HetuEngine.Relay
