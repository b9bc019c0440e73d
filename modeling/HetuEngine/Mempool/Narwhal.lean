/-
The mempool over Narwhal (mempool/narwhal_mempool.go and the receiving half
of mempool/narwhal_client.go), as one state machine.

# The goroutines

  - `CheckTx` gives a transaction to the wrapped mempool and then its hash
    to Narwhal. When the application accepts the transaction, a callback
    puts it in `txsByHash`.
  - The client reads frames from Narwhal, decodes the batch of hashes in
    each and puts it in a channel of capacity 1000, or drops it.
  - The poller takes a batch from the channel. If all its hashes are in
    `txsByHash` it appends the batch to `batchQueue`, unless that is full,
    and calls `CheckTx` of the wrapped mempool with each transaction.
  - Consensus locks, updates and unlocks the mempool; `Flush` and
    `RemoveTxByKey` come from elsewhere.

An `Event` is what a goroutine does between two points where another one can
come in; one that is not possible in a state changes nothing. A run is a list
of events, so it is any interleaving.

# Locks

`mtx` is held by consensus between `Lock` and `Unlock`, and else only within
one event. While the poller adds the transactions of a batch it holds
`txMapMtx` for reading, so nothing can write to `txsByHash`. `Lock` does not
take the lock of the wrapped mempool.

# What is added

`read`, `received`, `polled` and `submitted` record what was read from the
connection, returned by `GetNextBatch`, looked up in `txsByHash` (and
whether all was there) and sent to Narwhal. No goroutine reads them.
-/
import HetuEngine.Mempool.Pool
import HetuEngine.Narwhal.Messages

namespace HetuEngine.Mempool

open Lib
open Narwhal (Bytes32.bytes)

/-- The bytes of a hash as text (`string(txHash)`), or of a frame. -/
abbrev Bytes := List UInt8

def hexDigit (n : Nat) : UInt8 := if n < 10 then UInt8.ofNat (48 + n) else UInt8.ofNat (55 + n)

def hexText (bytes : List UInt8) : Bytes :=
  bytes.flatMap fun b => [hexDigit (b.toNat / 16), hexDigit (b.toNat % 16)]

/-- `BatchTransactions`: hashes, as text. -/
structure BatchTransactions where
  transactions : List Bytes
  round : Nat

/-- The parameters of the mempool over Narwhal: those of the wrapped one and
the decoding of a batch. -/
structure System extends Setup where
  unmarshal : Bytes → Option BatchTransactions

def System.hash (p : System) (tx : Tx) : Bytes := hexText (Bytes32.bytes (p.sha256 tx))

/-- Who called `CheckTx` of the wrapped mempool: `CheckTx`, with a callback,
or the poller, without. -/
inductive Caller where
  | client
  | poll

/-- Where `pollNarwhalTxs` is. -/
inductive Poller where
  /-- Waits for a batch. -/
  | idle
  /-- Is about to look the hashes up. -/
  | received (batch : BatchTransactions)
  /-- Has found them all. -/
  | complete (batch : BatchTransactions)
  /-- Has appended the batch to the queue. -/
  | queued (batch : BatchTransactions)
  /-- Adds the rest of the transactions, with `txMapMtx` held. -/
  | adding (rest : List Bytes) (addedTxs : Bool)
  /-- Is about to notify. -/
  | notifying (addedTxs : Bool)

/-- Where `Update` is, apart from waiting for the recheck. -/
inductive Updater where
  | idle
  /-- The committed transactions are no longer in `txsByHash`. -/
  | mapUpdated (height : Int) (committed : List (Tx × Nat))
      (preCheck : Option PreCheckFunc) (postCheck : Option PostCheckFunc)

inductive Flusher where
  | idle
  | mapFlushed
  | queueFlushed

/-- The state. `callbacks` are the answers whose callback waits for
`txMapMtx`, `submitting` the calls of `CheckTx` that are about to send their
hash to Narwhal. -/
structure Node where
  pool : Pool Caller
  txsByHash : HashMap Bytes MempoolTx
  batchQueue : List BatchTransactions
  txChan : List BatchTransactions
  poller : Poller
  updater : Updater
  flusher : Flusher
  locked : Bool
  callbacks : List (Tx × Response)
  submitting : List Tx
  read : List BatchTransactions
  received : List BatchTransactions
  polled : List (BatchTransactions × Bool)
  submitted : List Bytes

def txChanCapacity : Nat := 1000

def maxQueueSize : Nat := 100

inductive Event where
  | enableTxsAvailable
  /-- The client reads a frame. -/
  | frame (data : Bytes)
  /-- The poller gets a batch. -/
  | getNextBatch
  /-- The poller looks up its hashes. -/
  | precheck
  /-- The poller appends it to the queue. -/
  | enqueue
  /-- The poller takes `txMapMtx`. -/
  | lockMap
  /-- The poller calls `CheckTx` for the next transaction. -/
  | forward (conn : AppConn)
  /-- The poller releases `txMapMtx`. -/
  | unlockMap
  /-- The poller notifies. -/
  | notify
  /-- `CheckTx`, up to the return of the wrapped one. -/
  | checkTx (conn : AppConn) (tx : Tx)
  /-- `SubmitTransaction` in one of the calls of `CheckTx` returns. -/
  | submit (i : Nat) (ok : Bool)
  /-- The application answers a request. -/
  | respond (i : Nat) (res : Response)
  /-- The callback of one of the answers runs. -/
  | callback (i : Nat)
  | lock
  | unlock
  /-- `Update`, on `txsByHash`. -/
  | update (height : Int) (committed : List (Tx × Nat))
      (preCheck : Option PreCheckFunc) (postCheck : Option PostCheckFunc)
  /-- `Update`, of the wrapped mempool. -/
  | updatePool (conn : AppConn)
  | recheckDone
  | recheckTimeout
  | removeTxByKey (txKey : TxKey)
  /-- `Flush`, on `txsByHash`. -/
  | flush
  /-- `Flush`, on `batchQueue`. -/
  | flushQueue
  /-- `Flush`, of the wrapped mempool. -/
  | flushPool

/-- Whether a function of the wrapped mempool returns without an error. -/
def succeeds {α : Type} (m : Action Caller α) (s : Pool Caller) : Bool :=
  match m s with
  | .ok _ _ => true
  | .error _ _ => false

namespace Node

def mapLocked (n : Node) : Bool :=
  match n.poller with
  | .adding _ _ => true
  | _ => false

def haveAllTxs (n : Node) (batch : BatchTransactions) : Bool :=
  batch.transactions.all fun h => (n.txsByHash.lookup h).isSome

/-- Whether the next pool operation is possible for `Update`: the last one
has returned. -/
def updateIdle (n : Node) : Bool :=
  match n.updater with
  | .idle => !n.pool.updating
  | .mapUpdated .. => false

end Node

namespace System

variable (p : System)

def init (height : Int) (preCheck : Option PreCheckFunc)
    (postCheck : Option PostCheckFunc) : Node where
  pool := p.new height preCheck postCheck
  txsByHash := ∅
  batchQueue := []
  txChan := []
  poller := .idle
  updater := .idle
  flusher := .idle
  locked := false
  callbacks := []
  submitting := []
  read := []
  received := []
  polled := []
  submitted := []

/-- The client decodes a frame and passes the batch on, or drops it. -/
def readFrame (data : Bytes) (n : Node) : Node :=
  match p.unmarshal data with
  | none => n
  | some batch =>
    { n with
      read := n.read ++ [batch]
      txChan :=
        if n.txChan.length < txChanCapacity then n.txChan ++ [batch]
        else n.txChan }

/-- `GetNextBatch`; an empty batch is left at once. -/
def getNextBatch (n : Node) : Node :=
  match n.poller, n.txChan with
  | .idle, batch :: batches =>
    { n with
      txChan := batches
      received := n.received ++ [batch]
      poller := if batch.transactions = [] then .idle else .received batch }
  | _, _ => n

/-- The poller goes on with a batch if all its hashes are known. -/
def precheck (n : Node) : Node :=
  match n.poller with
  | .received batch =>
    { n with
      polled := n.polled ++ [(batch, n.haveAllTxs batch)]
      poller := if n.haveAllTxs batch then .complete batch else .idle }
  | _ => n

/-- The poller appends the batch to the queue, or leaves it if the queue is
full. -/
def enqueue (n : Node) : Node :=
  match n.poller with
  | .complete batch =>
    if n.locked then n
    else if maxQueueSize ≤ n.batchQueue.length then { n with poller := .idle }
    else { n with batchQueue := n.batchQueue ++ [batch], poller := .queued batch }
  | _ => n

def lockMap (n : Node) : Node :=
  match n.poller with
  | .queued batch => { n with poller := .adding batch.transactions false }
  | _ => n

/-- The poller gives the next transaction to the wrapped mempool. -/
def forward (conn : AppConn) (n : Node) : Node :=
  match n.poller with
  | .adding (h :: rest) addedTxs =>
    match n.txsByHash.lookup h with
    | none => { n with poller := .adding rest addedTxs }
    | some memTx =>
      { n with
        pool := p.apply n.pool (.checkTx conn memTx.tx .poll)
        poller := .adding rest (addedTxs || succeeds (p.checkTx conn memTx.tx .poll) n.pool) }
  | _ => n

def unlockMap (n : Node) : Node :=
  match n.poller with
  | .adding [] addedTxs => { n with poller := .notifying addedTxs }
  | _ => n

def notify (n : Node) : Node :=
  match n.poller with
  | .notifying addedTxs =>
    { n with
      pool := if addedTxs then p.apply n.pool .notifyTxsAvailable else n.pool
      poller := .idle }
  | _ => n

def callCheckTx (conn : AppConn) (tx : Tx) (n : Node) : Node :=
  { n with
    pool := p.apply n.pool (.checkTx conn tx .client)
    submitting :=
      if succeeds (p.checkTx conn tx .client) n.pool
      then n.submitting ++ [tx] else n.submitting }

def submit (i : Nat) (ok : Bool) (n : Node) : Node :=
  match n.submitting[i]? with
  | none => n
  | some tx =>
    { n with
      submitting := n.submitting.eraseIdx i
      submitted := if ok then n.submitted ++ [p.hash tx] else n.submitted }

/-- The application answers a request: the callbacks of the wrapped mempool
run, and the callback of `CheckTx` is next. -/
def answer (i : Nat) (res : Response) (n : Node) : Node :=
  { n with
    pool := p.apply n.pool (.respond i res)
    callbacks :=
      match p.respond i res n.pool with
      | .ok (some (tx, .client)) _ => n.callbacks ++ [(tx, res)]
      | _ => n.callbacks }

/-- The callback of `CheckTx`: an accepted transaction is kept under its
hash. -/
def runCallback (i : Nat) (n : Node) : Node :=
  match n.callbacks[i]? with
  | none => n
  | some (tx, res) =>
    if res.code = codeTypeOK then
      if n.mapLocked then n
      else
        { n with
          callbacks := n.callbacks.eraseIdx i
          txsByHash := n.txsByHash.insert (p.hash tx) ⟨n.pool.height, res.gasWanted, tx⟩ }
    else { n with callbacks := n.callbacks.eraseIdx i }

def updateMap (height : Int) (committed : List (Tx × Nat))
    (preCheck : Option PreCheckFunc) (postCheck : Option PostCheckFunc) (n : Node) : Node :=
  if n.updateIdle && !n.mapLocked then
    { n with
      txsByHash := committed.foldl (fun m x => m.erase (p.hash x.1)) n.txsByHash
      updater := .mapUpdated height committed preCheck postCheck }
  else n

def updatePool (conn : AppConn) (n : Node) : Node :=
  match n.updater with
  | .idle => n
  | .mapUpdated height committed preCheck postCheck =>
    { n with
      pool := p.apply n.pool (.update conn height committed preCheck postCheck)
      updater := .idle }

def flushMap (n : Node) : Node :=
  match n.flusher with
  | .idle =>
    if n.mapLocked then n
    else { n with txsByHash := ∅, flusher := .mapFlushed }
  | _ => n

def flushQueue (n : Node) : Node :=
  match n.flusher with
  | .mapFlushed =>
    if n.locked then n
    else { n with batchQueue := [], flusher := .queueFlushed }
  | _ => n

def flushPool (n : Node) : Node :=
  match n.flusher with
  | .queueFlushed => { n with pool := p.apply n.pool .flush, flusher := .idle }
  | _ => n

/-- One event. Nothing happens after a panic. -/
def step (n : Node) (e : Event) : Node :=
  if n.pool.crashed.isSome then n
  else match e with
    | .enableTxsAvailable => { n with pool := p.apply n.pool .enableTxsAvailable }
    | .frame data => p.readFrame data n
    | .getNextBatch => getNextBatch n
    | .precheck => precheck n
    | .enqueue => enqueue n
    | .lockMap => lockMap n
    | .forward conn => p.forward conn n
    | .unlockMap => unlockMap n
    | .notify => p.notify n
    | .checkTx conn tx => p.callCheckTx conn tx n
    | .submit i ok => p.submit i ok n
    | .respond i res => p.answer i res n
    | .callback i => p.runCallback i n
    | .lock => if n.locked then n else { n with locked := true }
    | .unlock => { n with locked := false }
    | .update height committed preCheck postCheck =>
      p.updateMap height committed preCheck postCheck n
    | .updatePool conn => p.updatePool conn n
    | .recheckDone => { n with pool := p.apply n.pool .recheckDone }
    | .recheckTimeout => { n with pool := p.apply n.pool .recheckTimeout }
    | .removeTxByKey txKey => { n with pool := p.apply n.pool (.removeTxByKey txKey) }
    | .flush => flushMap n
    | .flushQueue => flushQueue n
    | .flushPool => p.flushPool n

def runEvents (n : Node) (es : List Event) : Node := es.foldl p.step n

lemma runEvents_concat (n : Node) (es : List Event) (e : Event) :
    p.runEvents n (es ++ [e]) = p.step (p.runEvents n es) e :=
  List.foldl_append

end System

namespace System

/-- The operation of the wrapped mempool that an event performs. -/
def poolOp (n : Node) : Event → Option (Op Caller)
  | .enableTxsAvailable => some .enableTxsAvailable
  | .forward conn =>
    match n.poller with
    | .adding (h :: _) _ => (n.txsByHash.lookup h).map fun m => .checkTx conn m.tx .poll
    | _ => none
  | .notify =>
    match n.poller with
    | .notifying true => some .notifyTxsAvailable
    | _ => none
  | .checkTx conn tx => some (.checkTx conn tx .client)
  | .respond i res => some (.respond i res)
  | .updatePool conn =>
    match n.updater with
    | .idle => none
    | .mapUpdated height committed preCheck postCheck =>
      some (.update conn height committed preCheck postCheck)
  | .recheckDone => some .recheckDone
  | .recheckTimeout => some .recheckTimeout
  | .removeTxByKey txKey => some (.removeTxByKey txKey)
  | .flushPool =>
    match n.flusher with
    | .queueFlushed => some .flush
    | _ => none
  | _ => none

end System

def Node.reapMaxBytesMaxGas (maxBytes maxGas : Int) (n : Node) : List Tx :=
  n.pool.reapMaxBytesMaxGas maxBytes maxGas

-- ==== a small system

namespace Solo

/-- A hash that spells its input in base 257, room for eight transactions,
and frames that are batches of one hash. -/
def system : System where
  sha256 tx := Fin.ofNat _ (tx.foldl (fun n b => 257 * n + b.toNat + 1) 0)
  config :=
    { size := 8
      maxTxsBytes := 64
      cacheSize := 8
      maxTxBytes := 16
      keepInvalidTxsInCache := false
      recheck := true
      size_nonneg := by decide
      maxTxsBytes_nonneg := by decide }
  unmarshal data := some ⟨[data], 0⟩

def conn : AppConn := ⟨none, true⟩

def accepted : Response := ⟨codeTypeOK, 1⟩

def rejected : Response := ⟨1, 1⟩

end Solo

end HetuEngine.Mempool
