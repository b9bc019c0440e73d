/-
The mempool of CometBFT (mempool/clist_mempool.go): a list of checked
transactions, waiting to be proposed.

# How a transaction gets in

`CheckTx` asks the application and returns; the transaction is added when
the answer comes, on another goroutine. What waits for an answer is in
`requests`; answers come in any order (`respond`), each with its callbacks
in one step. After a block, `Update` removes what was committed and asks the
application again about the rest: those answers are matched against the list
with a cursor (`Recheck`), and `Update` returns when the last one came or
when its timer fires.

# What is kept and what is not

The functions are the source's, on a `Pool`; one that can fail is an
`Action`, whose failures are the errors it returns and the panics that end
the process. Integers are `Int`: sums of sizes are sums of lengths of
transactions in memory and do not overflow. Gas is what the application
says, so the sums of `ReapMaxBytesMaxGas` are reduced to 64 bits.

The application answers a `CheckTx` request with a `CheckTx` response. A
callback given to `CheckTx` is a label of some type `κ`.
-/
import HetuEngine.Lib.Fallible
import HetuEngine.Mempool.Containers
import HetuEngine.Narwhal.Config

namespace HetuEngine.Mempool

open Lib Lib.Fallible
open Narwhal (Bytes32)

abbrev Tx := List UInt8

abbrev TxKey := Bytes32

/-- A configuration that passes `ValidateBasic`. -/
structure MempoolConfig where
  size : Int
  maxTxsBytes : Int
  cacheSize : Int
  maxTxBytes : Int
  keepInvalidTxsInCache : Bool
  recheck : Bool
  size_nonneg : 0 ≤ size
  maxTxsBytes_nonneg : 0 ≤ maxTxsBytes

structure Response where
  code : Nat
  gasWanted : Int

def codeTypeOK : Nat := 0

/-- The application connection when it is used: its `Error()`, and whether
`CheckTxAsync` takes the request. -/
structure AppConn where
  error : Option String
  accepts : Bool

abbrev PreCheckFunc := Tx → Option String

abbrev PostCheckFunc := Tx → Response → Option String

inductive MempoolError where
  /-- "mempool is full: number of txs %d (max: %d), total txs bytes %d
  (max: %d)". -/
  | mempoolIsFull (numTxs maxTxs txsBytes maxTxsBytes : Int)
  /-- "mempool is still rechecking after a new committed block, so it is
  considered as full". -/
  | recheckFull
  /-- "Tx too large. Max size is %d, but got %d". -/
  | txTooLarge (max actual : Int)
  /-- "tx pre check: %v". -/
  | preCheck (err : String)
  /-- "appConn mempool: %v". -/
  | appConnMempool (err : String)
  /-- "tx already exists in cache". -/
  | txInCache
  /-- "transaction not found in mempool". -/
  | txNotFound

inductive Panic where
  /-- "CheckTx request for tx %s failed", also of a recheck. -/
  | checkTxRequest
  /-- "rechecking has not finished; cannot check new tx". -/
  | recheckUnfinished
  /-- "Having more than one rechecking process at a time is not
  possible.". -/
  | recheckTwice
  /-- The recheck cursor is nil where it is read. -/
  | nilCursor
  /-- "Remove(e) with false head": the element was removed before. -/
  | falseHead
  /-- "notified txs available but mempool is empty!". -/
  | notifiedEmpty
  deriving DecidableEq

inductive Failure where
  | error (e : MempoolError)
  | panic (p : Panic)

structure MempoolTx where
  height : Int
  gasWanted : Int
  tx : Tx

/-- A request to the application that was not answered yet: a first check
with its callback, or a recheck. -/
structure Request (κ : Type) where
  tx : Tx
  callback : Option κ

-- ==== recheck

/-- The recheck of the transactions after a block. `last` is the field
`end`; `doneCh` says whether its channel of capacity one is full. -/
structure Recheck where
  cursor : Option Nat
  last : Option Nat
  doneCh : Bool
  numPendingTxs : Int
  isRechecking : Bool
  recheckFull : Bool

namespace Recheck

def new : Recheck := ⟨none, none, false, 0, false, false⟩

def done (rc : Recheck) : Bool := !rc.isRechecking

def setDone (rc : Recheck) : Recheck :=
  { rc with cursor := none, recheckFull := false, isRechecking := false }

def tryFinish (rc : Recheck) : Bool × Recheck :=
  let rc := if rc.cursor = rc.last then rc.setDone else rc
  if rc.done then (true, { rc with doneCh := true }) else (false, rc)

/-- The loop of `findNextEntryMatching`: whether it found the transaction,
with the cursor on it; nothing if the cursor ran off the list. -/
def search (txs : CList MempoolTx) (tx : Tx) (rc : Recheck) : Option (Bool × Recheck) :=
  if rc.done then some (false, rc)
  else
    -- `Next` increases, so it can be followed `fresh` times at most
    match (txs.chain txs.fresh rc.cursor).find? fun x => x.2.tx = tx with
    | some x => some (true, { rc with cursor := some x.1, numPendingTxs := rc.numPendingTxs - 1 })
    | none => none

def findNextEntryMatching (txs : CList MempoolTx) (tx : Tx) (rc : Recheck) :
    Option (Bool × Recheck) :=
  match rc.search txs tx with
  | none => none
  | some (found, rc) =>
    let (finished, rc) := rc.tryFinish
    some (found, if finished then rc else { rc with cursor := rc.cursor.bind txs.next })

def setRecheckFull (rc : Recheck) : Recheck := { rc with recheckFull := !rc.done }

end Recheck

-- ==== the pool

/-- The state of a `CListMempool`. `txsAvailable` is nil before
`EnableTxsAvailable` and then a channel of capacity one; `updating` says
that `Update` waits for the recheck. -/
structure Pool (κ : Type) where
  height : Int
  txsBytes : Int
  notifiedTxsAvailable : Bool
  txsAvailable : Option Bool
  preCheck : Option PreCheckFunc
  postCheck : Option PostCheckFunc
  txs : CList MempoolTx
  recheck : Recheck
  txsMap : HashMap TxKey Nat
  cache : TxCache TxKey
  requests : List (Request κ)
  updating : Bool
  crashed : Option Panic

abbrev Action (κ α : Type) := EStateM Failure (Pool κ) α

/-- The parameters of a mempool: SHA-256 and the configuration. -/
structure Setup where
  sha256 : Tx → Bytes32
  config : MempoolConfig

namespace Pool

variable {κ : Type}

def size (s : Pool κ) : Int := s.txs.len

def content (s : Pool κ) : List Tx := s.txs.values.map MempoolTx.tx

def postCheckErr (s : Pool κ) (tx : Tx) (res : Response) : Option String :=
  s.postCheck.bind fun f => f tx res

/-- Whether the application and the post-check accept a transaction. -/
def valid (s : Pool κ) (tx : Tx) (res : Response) : Bool :=
  res.code = codeTypeOK && (s.postCheckErr tx res).isNone

def setCache (cache : TxCache TxKey) (s : Pool κ) : Pool κ := { s with cache }

def setRecheck (recheck : Recheck) (s : Pool κ) : Pool κ := { s with recheck }

def ask (r : Request κ) (s : Pool κ) : Pool κ := { s with requests := s.requests ++ [r] }

def enableTxsAvailable (s : Pool κ) : Pool κ := { s with txsAvailable := some false }

end Pool

namespace Setup

variable {κ : Type} (p : Setup)

def key (tx : Tx) : TxKey := p.sha256 tx

def new (height : Int) (preCheck : Option PreCheckFunc)
    (postCheck : Option PostCheckFunc) : Pool κ where
  height := height
  txsBytes := 0
  notifiedTxsAvailable := false
  txsAvailable := none
  preCheck := preCheck
  postCheck := postCheck
  txs := .new
  recheck := .new
  txsMap := ∅
  cache := .new p.config.cacheSize
  requests := []
  updating := false
  crashed := none

def isFull (txSize : Int) (s : Pool κ) : Option MempoolError :=
  if p.config.size ≤ s.size ∨ p.config.maxTxsBytes < txSize + s.txsBytes then
    some (.mempoolIsFull s.size p.config.size s.txsBytes p.config.maxTxsBytes)
  else if s.recheck.recheckFull then some .recheckFull
  else none

def check (err : Option MempoolError) : Action κ Unit :=
  match err with
  | some e => throw (.error e)
  | none => return ()

-- ==== CheckTx

def checkTx (conn : AppConn) (tx : Tx) (callback : κ) : Action κ Unit := do
  let s ← get
  check (p.isFull tx.length s)
  if p.config.maxTxBytes < tx.length then throw (.error (.txTooLarge p.config.maxTxBytes tx.length))
  else
    check ((s.preCheck.bind fun f => f tx).map .preCheck)
    check (conn.error.map .appConnMempool)
    modify (Pool.setCache (s.cache.push (p.key tx)).2)
    if (s.cache.push (p.key tx)).1 then
      if conn.accepts then modify (Pool.ask ⟨tx, some callback⟩)
      else throw (.panic .checkTxRequest)
    else throw (.error .txInCache)

def addTx (memTx : MempoolTx) (s : Pool κ) : Pool κ :=
  let (txs, e) := s.txs.pushBack memTx
  { s with
    txs := txs
    txsMap := s.txsMap.insert (p.key memTx.tx) e
    txsBytes := s.txsBytes + memTx.tx.length }

def removeTxByKey (txKey : TxKey) : Action κ Unit := do
  let s ← get
  match s.txsMap.lookup txKey with
  | none => throw (.error .txNotFound)
  | some e =>
    if s.txs.live e then
      set { s with
        txs := s.txs.remove e
        txsMap := s.txsMap.erase txKey
        txsBytes := s.txsBytes - ((s.txs.value e).elim 0 fun m => (m.tx.length : Int)) }
    else throw (.panic .falseHead)

/-- Call `RemoveTxByKey` and only log its error. -/
def tryRemove (txKey : TxKey) : Action κ Unit := do
  let s ← get
  if (s.txsMap.lookup txKey).isSome then removeTxByKey txKey
  else return ()

/-- Forget a transaction that is invalid, unless those are kept in the
cache. -/
def forgetInvalid (tx : Tx) (s : Pool κ) : Pool κ :=
  if p.config.keepInvalidTxsInCache then s
  else s.setCache (s.cache.remove (p.key tx))

def resCbFirstTime (tx : Tx) (res : Response) (s : Pool κ) : Pool κ :=
  if s.valid tx res then
    match p.isFull tx.length s with
    | some _ => s.setCache (s.cache.remove (p.key tx))
    | none =>
      match s.txsMap.lookup (p.key tx) with
      | some _ => s
      | none => p.addTx ⟨s.height, res.gasWanted, tx⟩ s
  else p.forgetInvalid tx s

/-- `reqResCb`, up to the callback of the caller. -/
def reqResCb (tx : Tx) (res : Response) : Action κ Unit := do
  let s ← get
  if s.recheck.done then modify (p.resCbFirstTime tx res)
  else throw (.panic .recheckUnfinished)

def resCbRecheck (tx : Tx) (res : Response) : Action κ Unit := do
  let s ← get
  match s.recheck.findNextEntryMatching s.txs tx with
  | none => throw (.panic .nilCursor)
  | some (found, recheck) =>
    modify (Pool.setRecheck recheck)
    if found && !s.valid tx res then
      tryRemove (p.key tx)
      modify (p.forgetInvalid tx)
    else return ()

/-- `globalCb`, for the answer to a recheck. -/
def globalCb (tx : Tx) (res : Response) : Action κ Unit := do
  let s ← get
  if s.recheck.done then return ()
  else p.resCbRecheck tx res

/-- The application answers a request: the callbacks of the mempool run, and
the callback of the caller is returned. -/
def respond (i : Nat) (res : Response) : Action κ (Option (Tx × κ)) := do
  let s ← get
  match s.requests[i]? with
  | none => return none
  | some r =>
    modify fun s => { s with requests := s.requests.eraseIdx i }
    match r.callback with
    | some callback =>
      p.reqResCb r.tx res
      return some (r.tx, callback)
    | none =>
      p.globalCb r.tx res
      return none

-- ==== Update

/-- A committed transaction stays in the cache if it is valid. -/
def noteCommitted (tx : Tx) (code : Nat) (s : Pool κ) : Pool κ :=
  if code = codeTypeOK then s.setCache (s.cache.push (p.key tx)).2
  else p.forgetInvalid tx s

/-- The loop of `Update` over the committed transactions, each with the
code of its result. -/
def removeCommitted : List (Tx × Nat) → Action κ Unit
  | [] => return ()
  | (tx, code) :: rest => do
      modify (p.noteCommitted tx code)
      tryRemove (p.key tx)
      removeCommitted rest

/-- The requests of `recheckTxs`, one for each transaction. -/
def askAgain (s : Pool κ) : Pool κ :=
  { s with
    recheck := { s.recheck with
      cursor := s.txs.front
      last := s.txs.back
      numPendingTxs := s.txs.len
      isRechecking := true }
    requests := s.requests ++ s.content.map fun tx => ⟨tx, none⟩
    updating := true }

/-- `recheckTxs`, up to where it waits. -/
def recheckTxs (conn : AppConn) : Action κ Unit := do
  let s ← get
  if s.size ≤ 0 then return ()
  else if s.recheck.done then
    if conn.accepts then modify askAgain
    else throw (.panic .checkTxRequest)
  else throw (.panic .recheckTwice)

/-- What `Update` sets before its loop. -/
def startUpdate (height : Int) (preCheck : Option PreCheckFunc)
    (postCheck : Option PostCheckFunc) (s : Pool κ) : Pool κ :=
  { s with
    height := height
    notifiedTxsAvailable := false
    preCheck := preCheck.or s.preCheck
    postCheck := postCheck.or s.postCheck }

/-- `Update`, up to where it waits for the recheck. -/
def update (conn : AppConn) (height : Int) (committed : List (Tx × Nat))
    (preCheck : Option PreCheckFunc) (postCheck : Option PostCheckFunc) :
    Action κ Unit := do
  modify (startUpdate height preCheck postCheck)
  p.removeCommitted committed
  if p.config.recheck then recheckTxs conn else return ()

/-- `Update` takes the signal that the recheck is done. -/
def recheckDone (s : Pool κ) : Pool κ :=
  if s.updating && s.recheck.doneCh then
    { s with updating := false, recheck := { s.recheck with doneCh := false } }
  else s

def recheckTimeout (s : Pool κ) : Pool κ :=
  if s.updating then { s with updating := false, recheck := s.recheck.setDone }
  else s

-- ==== flush, notifying

def flush (s : Pool κ) : Pool κ :=
  { s with txsBytes := 0, cache := s.cache.reset, txs := s.txs.removeAll, txsMap := ∅ }

def notifyTxsAvailable : Action κ Unit := do
  let s ← get
  if s.size = 0 then throw (.panic .notifiedEmpty)
  else if s.txsAvailable.isSome && !s.notifiedTxsAvailable then
    set { s with notifiedTxsAvailable := true, txsAvailable := some true }
  else return ()

end Setup

-- ==== reaping

def int64 (x : Int) : Int := x.bmod (2 ^ 64)

def sovTypes (x : Nat) : Nat := ((x ||| 1).log2 + 1 + 6) / 7

def protoSize (tx : Tx) : Int := 1 + tx.length + sovTypes tx.length

def reapLoop (maxBytes maxGas : Int) : (runningSize totalGas : Int) → List MempoolTx → List Tx
  | _, _, [] => []
  | runningSize, totalGas, memTx :: rest =>
    let newSize := int64 (runningSize + protoSize memTx.tx)
    let newTotalGas := int64 (totalGas + memTx.gasWanted)
    if -1 < maxBytes ∧ maxBytes < newSize then []
    else if -1 < maxGas ∧ maxGas < newTotalGas then []
    else memTx.tx :: reapLoop maxBytes maxGas newSize newTotalGas rest

/-- The loop of `ReapMaxTxs`, with the number of transactions taken. -/
def reapTxsLoop (max : Int) : (taken : Int) → List MempoolTx → List Tx
  | _, [] => []
  | taken, memTx :: rest =>
    if taken ≤ max then memTx.tx :: reapTxsLoop max (taken + 1) rest
    else []

namespace Pool

variable {κ : Type}

def reapMaxBytesMaxGas (maxBytes maxGas : Int) (s : Pool κ) : List Tx :=
  reapLoop maxBytes maxGas 0 0 s.txs.values

def reapMaxTxs (max : Int) (s : Pool κ) : List Tx :=
  reapTxsLoop (if max < 0 then s.size else max) 0 s.txs.values

end Pool

-- ==== operations

inductive Op (κ : Type) where
  | enableTxsAvailable
  | checkTx (conn : AppConn) (tx : Tx) (callback : κ)
  | respond (i : Nat) (res : Response)
  | removeTxByKey (txKey : TxKey)
  /-- The part of `Lock` that changes the mempool. -/
  | lock
  | update (conn : AppConn) (height : Int) (committed : List (Tx × Nat))
      (preCheck : Option PreCheckFunc) (postCheck : Option PostCheckFunc)
  | recheckDone
  | recheckTimeout
  | flush
  | notifyTxsAvailable

/-- The state after a function, which stops there if it panicked. -/
def perform {κ α : Type} (m : Action κ α) (s : Pool κ) : Pool κ :=
  match m s with
  | .ok _ s' => s'
  | .error (.error _) s' => s'
  | .error (.panic q) s' => { s' with crashed := some q }

namespace Setup

variable {κ : Type} (p : Setup)

/-- One operation. Nothing happens after a panic, and `Update` is not called
while it still runs. -/
def apply (s : Pool κ) (op : Op κ) : Pool κ :=
  if s.crashed.isSome then s
  else match op with
    | .enableTxsAvailable => s.enableTxsAvailable
    | .checkTx conn tx callback => perform (p.checkTx conn tx callback) s
    | .respond i res => perform (p.respond i res) s
    | .removeTxByKey txKey => perform (removeTxByKey txKey) s
    | .lock => s.setRecheck s.recheck.setRecheckFull
    | .update conn height committed preCheck postCheck =>
      if s.updating then s
      else perform (p.update conn height committed preCheck postCheck) s
    | .recheckDone => recheckDone s
    | .recheckTimeout => recheckTimeout s
    | .flush => flush s
    | .notifyTxsAvailable => perform notifyTxsAvailable s

def runFrom (s : Pool κ) (ops : List (Op κ)) : Pool κ := ops.foldl p.apply s

lemma runFrom_concat (s : Pool κ) (ops : List (Op κ)) (op : Op κ) :
    p.runFrom s (ops ++ [op]) = p.apply (p.runFrom s ops) op :=
  List.foldl_append

end Setup

end HetuEngine.Mempool
