/-
What one event does to the mempool over Narwhal.

The wrapped mempool sees a sequence of its own operations: each event
performs at most one, and `poolOp` says which (`step_pool`). So what holds
of the wrapped mempool after any operations holds of it inside the mempool
over Narwhal (`run_nodeRep`). The other parts of the state change in few
places; there is one lemma for each part.
-/
import HetuEngine.Mempool.Narwhal
import HetuEngine.Mempool.Proofs.Rep

namespace HetuEngine.Mempool

open Lib Mempool.System

variable {p : System} {n : Node} {e : Event}

lemma apply_crashed {κ : Type} {p : Setup} {s : Pool κ}
    (h : s.crashed.isSome = true) (op : Op κ) : p.apply s op = s := by
  unfold Setup.apply
  rw [if_pos h]

lemma step_crashed (h : n.pool.crashed.isSome = true) (e : Event) :
    p.step n e = n := by
  unfold step
  rw [if_pos h]

-- ==== changes

inductive NodeStep (p : System) (n : Node) : Event → Node → Prop
  | none (e : Event) : NodeStep p n e n
  | frame {data : Bytes} {batch : BatchTransactions} (hdata : p.unmarshal data = some batch) :
      NodeStep p n (.frame data) { n with
        read := n.read ++ [batch]
        txChan :=
          if n.txChan.length < txChanCapacity then n.txChan ++ [batch]
          else n.txChan }
  | getNextBatch {batch : BatchTransactions} {batches : List BatchTransactions}
      (hidle : n.poller = .idle) (hchan : n.txChan = batch :: batches) :
      NodeStep p n .getNextBatch { n with
        txChan := batches
        received := n.received ++ [batch]
        poller := if batch.transactions = [] then .idle else .received batch }
  | precheck {batch : BatchTransactions} (hp : n.poller = .received batch) :
      NodeStep p n .precheck { n with
        polled := n.polled ++ [(batch, n.haveAllTxs batch)]
        poller := if n.haveAllTxs batch then .complete batch else .idle }
  | leave {batch : BatchTransactions} (hp : n.poller = .complete batch)
      (hfull : maxQueueSize ≤ n.batchQueue.length) :
      NodeStep p n .enqueue { n with poller := .idle }
  | enqueue {batch : BatchTransactions} (hp : n.poller = .complete batch)
      (hroom : n.batchQueue.length < maxQueueSize) : NodeStep p n .enqueue { n with
        batchQueue := n.batchQueue ++ [batch]
        poller := .queued batch }
  | lockMap {batch : BatchTransactions} (hp : n.poller = .queued batch) : NodeStep p n .lockMap
        { n with poller := .adding batch.transactions false }
  | skip {conn : AppConn} {h : Bytes} {rest : List Bytes} {addedTxs : Bool}
      (hp : n.poller = .adding (h :: rest) addedTxs) (hnone : n.txsByHash.lookup h = none) :
      NodeStep p n (.forward conn) { n with poller := .adding rest addedTxs }
  | forward {conn : AppConn} {h : Bytes} {rest : List Bytes}
      {addedTxs : Bool} {memTx : MempoolTx} (hp : n.poller = .adding (h :: rest) addedTxs)
      (hsome : n.txsByHash.lookup h = some memTx) :
      NodeStep p n (.forward conn) { n with
        pool := p.apply n.pool (.checkTx conn memTx.tx .poll)
        poller := .adding rest (addedTxs || succeeds (p.checkTx conn memTx.tx .poll) n.pool) }
  | unlockMap {addedTxs : Bool} (hp : n.poller = .adding [] addedTxs) :
      NodeStep p n .unlockMap { n with poller := .notifying addedTxs }
  | notify {addedTxs : Bool} (hp : n.poller = .notifying addedTxs) : NodeStep p n .notify { n with
        pool := if addedTxs then p.apply n.pool .notifyTxsAvailable else n.pool
        poller := .idle }
  | checkTx (conn : AppConn) (tx : Tx) : NodeStep p n (.checkTx conn tx) (p.callCheckTx conn tx n)
  | submit {i : Nat} {ok : Bool} {tx : Tx} (htx : n.submitting[i]? = some tx) :
      NodeStep p n (.submit i ok) { n with
        submitting := n.submitting.eraseIdx i
        submitted := if ok then n.submitted ++ [p.hash tx] else n.submitted }
  | answer (i : Nat) (res : Response) : NodeStep p n (.respond i res) (p.answer i res n)
  | store {i : Nat} {tx : Tx} {res : Response} (hcb : n.callbacks[i]? = some (tx, res))
      (hcode : res.code = codeTypeOK) (hfree : n.mapLocked = false) :
      NodeStep p n (.callback i) { n with
        callbacks := n.callbacks.eraseIdx i
        txsByHash := n.txsByHash.insert (p.hash tx) ⟨n.pool.height, res.gasWanted, tx⟩ }
  | ignore {i : Nat} {tx : Tx} {res : Response} (hcb : n.callbacks[i]? = some (tx, res))
      (hcode : res.code ≠ codeTypeOK) : NodeStep p n (.callback i)
        { n with callbacks := n.callbacks.eraseIdx i }
  | lock : NodeStep p n .lock { n with locked := true }
  | unlock : NodeStep p n .unlock { n with locked := false }
  | updateMap {height : Int} {committed : List (Tx × Nat)}
      {preCheck : Option PreCheckFunc} {postCheck : Option PostCheckFunc}
      (hidle : n.updateIdle = true) (hfree : n.mapLocked = false) :
      NodeStep p n (.update height committed preCheck postCheck) { n with
        txsByHash := committed.foldl (fun m x => m.erase (p.hash x.1)) n.txsByHash
        updater := .mapUpdated height committed preCheck postCheck }
  | updatePool {conn : AppConn} {height : Int} {committed : List (Tx × Nat)}
      {preCheck : Option PreCheckFunc} {postCheck : Option PostCheckFunc}
      (hup : n.updater = .mapUpdated height committed preCheck postCheck) :
      NodeStep p n (.updatePool conn) { n with
        pool := p.apply n.pool (.update conn height committed preCheck postCheck)
        updater := .idle }
  | pool {e : Event} {op : Op Caller} (hop : System.poolOp n e = some op)
      (hkind : e = .enableTxsAvailable ∨ e = .recheckDone
        ∨ e = .recheckTimeout ∨ ∃ txKey, e = .removeTxByKey txKey) :
      NodeStep p n e { n with pool := p.apply n.pool op }
  | flushMap (hidle : n.flusher = .idle) (hfree : n.mapLocked = false) : NodeStep p n .flush
        { n with txsByHash := ∅, flusher := .mapFlushed }
  | flushQueue (hf : n.flusher = .mapFlushed) : NodeStep p n .flushQueue
        { n with batchQueue := [], flusher := .queueFlushed }
  | flushPool (hf : n.flusher = .queueFlushed) : NodeStep p n .flushPool
        { n with pool := p.apply n.pool .flush, flusher := .idle }

lemma step_node (p : System) (n : Node) (e : Event) :
    NodeStep p n e (p.step n e) := by
  by_cases hc : n.pool.crashed.isSome = true
  · rw [step_crashed hc]
    exact .none e
  unfold step
  rw [if_neg hc]
  cases e with
  | frame data =>
    simp only [readFrame]
    split
    · exact .none _
    next hdata => exact .frame hdata
  | getNextBatch =>
    simp only [getNextBatch]
    split
    · next hidle hchan => exact .getNextBatch hidle hchan
    exact .none _
  | precheck =>
    simp only [precheck]
    split
    · next hp => exact .precheck hp
    exact .none _
  | enqueue =>
    simp only [enqueue]
    split
    · next hp =>
      split_ifs with hlocked hfull
      · exact .none _
      · exact .leave hp hfull
      exact .enqueue hp (Nat.lt_of_not_le hfull)
    exact .none _
  | lockMap =>
    simp only [lockMap]
    split
    · next hp => exact .lockMap hp
    exact .none _
  | forward conn =>
    simp only [forward]
    split
    · next hp =>
      split
      · next hnone => exact .skip hp hnone
      next hsome => exact .forward hp hsome
    exact .none _
  | unlockMap =>
    simp only [unlockMap]
    split
    · next hp => exact .unlockMap hp
    exact .none _
  | notify =>
    simp only [notify]
    split
    · next hp => exact .notify hp
    exact .none _
  | submit i ok =>
    simp only [submit]
    split
    · exact .none _
    next htx => exact .submit htx
  | callback i =>
    simp only [runCallback]
    split
    · exact .none _
    next hcb =>
    split_ifs with hcode hlocked
    · exact .none _
    · exact .store hcb hcode (by simpa using hlocked)
    exact .ignore hcb hcode
  | lock =>
    simp only
    split_ifs
    · exact .none _
    exact .lock
  | update height committed preCheck postCheck =>
    simp only [updateMap]
    split_ifs with hidle
    · rw [Bool.and_eq_true, Bool.not_eq_true'] at hidle
      exact .updateMap hidle.1 hidle.2
    exact .none _
  | updatePool conn =>
    simp only [updatePool]
    split
    · exact .none _
    next hup => exact .updatePool hup
  | flush =>
    simp only [flushMap]
    split
    · next hidle =>
      split_ifs with hlocked
      · exact .none _
      exact .flushMap hidle (by simpa using hlocked)
    exact .none _
  | flushQueue =>
    simp only [flushQueue]
    split
    · next hf =>
      split_ifs
      · exact .none _
      exact .flushQueue hf
    exact .none _
  | flushPool =>
    simp only [flushPool]
    split
    · next hf => exact .flushPool hf
    exact .none _
  | enableTxsAvailable => exact .pool rfl (.inl rfl)
  | recheckDone => exact .pool rfl (.inr (.inl rfl))
  | recheckTimeout => exact .pool rfl (.inr (.inr (.inl rfl)))
  | removeTxByKey txKey => exact .pool rfl (.inr (.inr (.inr ⟨txKey, rfl⟩)))
  | checkTx conn tx => exact .checkTx conn tx
  | respond i res => exact .answer i res
  | unlock => exact .unlock

/-- Answers reach the wrapped mempool through their own event. -/
lemma poolOp_eq_respond {i : Nat} {res : Response}
    (h : poolOp n e = some (.respond i res)) : e = .respond i res := by
  unfold poolOp at h
  split at h
  case h_5 => cases h; rfl
  case h_2 =>
    split at h
    · cases hl : n.txsByHash.lookup _ with
      | none | some m => rw [hl] at h; cases h
    cases h
  case h_3 | h_6 | h_10 =>
    split at h
    · cases h
    cases h
  all_goals cases h

/-- The wrapped mempool performs the operation of the event. -/
lemma step_pool_eq (p : System) (n : Node) (e : Event) : (p.step n e).pool
    = (poolOp n e).elim n.pool (p.apply n.pool) := by
  by_cases hc : n.pool.crashed.isSome = true
  · rw [step_crashed hc]
    cases poolOp n e with
    | none => rfl
    | some op => exact (apply_crashed hc op).symm
  unfold step
  rw [if_neg hc]
  cases e with
  | frame | getNextBatch | precheck | lockMap | unlockMap | submit =>
    simp only [readFrame, getNextBatch, precheck, lockMap, unlockMap, submit]
    split <;> rfl
  | enqueue =>
    simp only [enqueue]
    split
    · split_ifs <;> rfl
    rfl
  | forward conn =>
    simp only [forward, poolOp]
    split
    · next h _ _ _ => cases n.txsByHash.lookup h <;> rfl
    rfl
  | notify =>
    simp only [notify, poolOp]
    split
    · next addedTxs hp =>
      rw [hp]
      cases addedTxs <;> rfl
    next hno =>
    split
    · next hp => exact absurd hp (hno _)
    rfl
  | callback i =>
    simp only [runCallback]
    split
    · rfl
    split_ifs <;> rfl
  | lock =>
    simp only
    split_ifs <;> rfl
  | update height committed preCheck postCheck =>
    simp only [updateMap]
    split_ifs <;> rfl
  | updatePool conn =>
    simp only [updatePool, poolOp]
    cases n.updater <;> rfl
  | flush | flushQueue =>
    simp only [flushMap, flushQueue]
    split
    · split_ifs <;> rfl
    rfl
  | flushPool =>
    simp only [flushPool, poolOp]
    cases n.flusher <;> rfl
  | _ => rfl

lemma step_pool (p : System) (n : Node) (e : Event) :
    (p.step n e).pool = n.pool
      ∨ ∃ op, poolOp n e = some op
        ∧ (p.step n e).pool = p.apply n.pool op := by
  rw [step_pool_eq]
  cases poolOp n e with
  | none => exact .inl rfl
  | some op => exact .inr ⟨op, rfl, rfl⟩

lemma step_nodeRep (hr : Rep p.toSetup n.pool) (e : Event) :
    Rep p.toSetup (p.step n e).pool := by
  rcases step_pool p n e with h | ⟨op, -, h⟩
  · rw [h]
    exact hr
  rw [h]
  exact (apply_stock hr op).rep hr

lemma run_nodeRep (p : System) (height : Int)
    (preCheck : Option PreCheckFunc) (postCheck : Option PostCheckFunc)
    (es : List Event) :
    Rep p.toSetup
      (p.runEvents (p.init height preCheck postCheck) es).pool := by
  induction es using List.reverseRecOn with
  | nil => exact rep_new _ _ _ _
  | append_singleton es e ih =>
    rw [p.runEvents_concat]
    exact step_nodeRep ih e

end HetuEngine.Mempool
