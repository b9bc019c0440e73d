/-
Whether the batches of Narwhal arrive.

A batch passes the channel of the client and the queue of the mempool, and
both have a bound. When the channel is full the client drops the batch.
When the queue is full the poller logs that it waits for space, but goes on
with the next batch, and only `Flush` takes batches from the queue: from the
hundredth batch on all are lost (`batches_kept_fails`).

`batches_kept_iff`: nothing is lost exactly if the channel has room whenever
a batch is read, the queue has room whenever one is to be queued, and `Flush`
finds the queue empty.
-/
import HetuEngine.Lib.Along
import HetuEngine.Mempool.Proofs.Steps

namespace HetuEngine.Mempool

open Lib List Solo Mempool.System Poller

variable {p : System} {n n' : Node} {e : Event}

def Poller.unchecked : Poller → List BatchTransactions
  | .received batch => [batch]
  | _ => []

def Poller.unqueued : Poller → List BatchTransactions
  | .complete batch => [batch]
  | _ => []

/-- No batch is lost or overtaken: those read are those returned by
`GetNextBatch` and those still in the channel; of the former, all that are
not empty are looked up; and those whose hashes were all known are the
queue. -/
structure Lossless (n : Node) : Prop where
  chan : n.read = n.received ++ n.txChan
  polled : (n.received.filter fun b => b.transactions ≠ [])
    = n.polled.map Prod.fst ++ n.poller.unchecked
  queue : (n.polled.filter Prod.snd).map Prod.fst = n.batchQueue ++ n.poller.unqueued

/-- The channel has room for a batch that is read, the queue for a batch
that is to be queued, and a `Flush` finds the queue empty. -/
def Roomy (p : System) (n : Node) : Event → Prop
  | .frame data => n.pool.crashed = none → p.unmarshal data ≠ none →
      n.txChan.length < txChanCapacity
  | .enqueue => n.pool.crashed = none → n.locked = false →
      ∀ batch, n.poller = .complete batch → n.batchQueue.length < maxQueueSize
  | .flushQueue => n.pool.crashed = none → n.locked = false →
      n.flusher = .mapFlushed → n.batchQueue = []
  | _ => True

lemma roomy_of_crashed (h : n.pool.crashed ≠ none) (e : Event) :
    Roomy p n e := by
  cases e with
  | frame data | enqueue | flushQueue => exact fun hnone => absurd hnone h
  | _ => trivial

lemma Lossless.congr (h : Lossless n) (hread : n'.read = n.read)
    (hrec : n'.received = n.received) (hchan : n'.txChan = n.txChan)
    (hpolled : n'.polled = n.polled) (hqueue : n'.batchQueue = n.batchQueue)
    (hun : n'.poller.unchecked = n.poller.unchecked)
    (huq : n'.poller.unqueued = n.poller.unqueued) : Lossless n' := by
  refine ⟨?_, ?_, ?_⟩
  · rw [hread, hrec, hchan]
    exact h.chan
  · rw [hrec, hpolled, hun]
    exact h.polled
  rw [hpolled, hqueue, huq]
  exact h.queue

/-- A batch that is read is kept exactly when the channel has room. -/
lemma Lossless.frame_iff (h : Lossless n) (hc : n.pool.crashed = none)
    (data : Bytes) :
    Lossless (p.readFrame data n) ↔ Roomy p n (.frame data) := by
  simp only [readFrame]
  cases hdata : p.unmarshal data with
  | none => exact ⟨fun _ _ hne => absurd hdata hne, fun _ => h⟩
  | some batch =>
    by_cases hroom : n.txChan.length < txChanCapacity
    · simp only [if_pos hroom]
      refine ⟨fun _ _ _ => hroom, fun _ => ⟨?_, h.polled, h.queue⟩⟩
      simp only [h.chan, append_assoc]
    simp only [if_neg hroom]
    constructor
    · intro hl
      have hlen := congrArg length hl.chan
      simp only [h.chan, length_append, length_singleton] at hlen
      omega
    intro hr
    have hne : p.unmarshal data ≠ none := by
      rw [hdata]
      exact Option.some_ne_none _
    exact absurd (hr hc hne) hroom

/-- A complete batch is kept exactly when the queue has room. -/
lemma Lossless.enqueue_iff (h : Lossless n) (hc : n.pool.crashed = none) :
    Lossless (enqueue n) ↔ Roomy p n .enqueue := by
  simp only [enqueue]
  split
  · next batch hp =>
    cases hlocked : n.locked with
    | true =>
      refine ⟨fun _ _ hfree => ?_, fun _ => h⟩
      rw [hlocked] at hfree
      cases hfree
    | false =>
      have hqueue := h.queue
      rw [hp] at hqueue
      by_cases hfull : maxQueueSize ≤ n.batchQueue.length
      · rw [if_pos hfull]
        constructor
        · intro hl
          have hlen := congrArg length (hqueue.symm.trans hl.queue)
          simp [unqueued] at hlen
        intro hr
        have := hr hc hlocked batch hp
        omega
      rw [if_neg hfull]
      refine ⟨fun _ _ _ _ _ => Nat.lt_of_not_le hfull, fun _ => ?_⟩
      refine ⟨h.chan, ?_, ?_⟩
      · have hpolled := h.polled
        rw [hp] at hpolled
        exact hpolled
      simpa [unqueued] using hqueue
  next hno => exact ⟨fun _ _ _ batch hp => absurd hp (hno batch), fun _ => h⟩

/-- A `Flush` loses nothing exactly when the queue is empty. -/
lemma Lossless.flushQueue_iff (h : Lossless n) (hc : n.pool.crashed = none) :
    Lossless (flushQueue n) ↔ Roomy p n .flushQueue := by
  simp only [flushQueue]
  split
  · next hf =>
    cases hlocked : n.locked with
    | true =>
      refine ⟨fun _ _ hfree => ?_, fun _ => h⟩
      rw [hlocked] at hfree
      cases hfree
    | false =>
      constructor
      · intro hl _ _ _
        have hlen := congrArg length (h.queue.symm.trans hl.queue)
        exact length_eq_zero_iff.mp (by simpa using hlen)
      intro hr
      have hempty := hr hc hlocked hf
      exact h.congr rfl rfl rfl rfl hempty.symm rfl rfl
  next hno => exact ⟨fun _ _ _ hf => absurd hf hno, fun _ => h⟩

/-- All other events lose nothing. -/
lemma NodeStep.lossless (hs : NodeStep p n e n') (h : Lossless n)
    (hframe : ∀ data, e ≠ .frame data) (henq : e ≠ .enqueue)
    (hflush : e ≠ .flushQueue) : Lossless n' := by
  cases hs with
  | none => exact h
  | @getNextBatch batch batches hidle hchan =>
    have hc := h.chan
    have hpl := h.polled
    have hq := h.queue
    rw [hchan] at hc
    rw [hidle] at hpl hq
    refine ⟨by simpa using hc, ?_, ?_⟩
    · simp only [filter_append, hpl, unchecked, append_nil]
      by_cases hempty : batch.transactions = []
      all_goals simp [hempty]
    by_cases hempty : batch.transactions = []
    · simpa [hempty] using hq
    simpa [hempty, unqueued] using hq
  | @precheck batch hp =>
    have hpl := h.polled
    have hq := h.queue
    rw [hp] at hpl hq
    refine ⟨h.chan, ?_, ?_⟩
    · simp only [hpl, map_append]
      by_cases hall : n.haveAllTxs batch = true
      all_goals simp [hall, unchecked]
    simp only [filter_append, map_append, hq]
    by_cases hall : n.haveAllTxs batch = true
    all_goals simp [hall, unqueued]
  | lockMap hp | skip hp | forward hp | unlockMap hp | notify hp =>
    exact h.congr rfl rfl rfl rfl rfl
      (congrArg unchecked hp).symm (congrArg unqueued hp).symm
  | frame => exact absurd rfl (hframe _)
  | leave | enqueue => exact absurd rfl henq
  | flushQueue => exact absurd rfl hflush
  | _ => exact h.congr rfl rfl rfl rfl rfl rfl rfl

/-- From a state where nothing is lost, an event loses nothing exactly when
there is room. -/
lemma Lossless.step_iff (h : Lossless n) (e : Event) :
    Lossless (p.step n e) ↔ Roomy p n e := by
  by_cases hc : n.pool.crashed = none
  · have hlive : ¬ n.pool.crashed.isSome = true := by simp [hc]
    cases e with
    | frame data =>
      simp only [step, if_neg hlive]
      exact h.frame_iff hc data
    | enqueue =>
      simp only [step, if_neg hlive]
      exact h.enqueue_iff hc
    | flushQueue =>
      simp only [step, if_neg hlive]
      exact h.flushQueue_iff hc
    | _ =>
      refine ⟨fun _ => trivial, fun _ => (step_node p n _).lossless h ?_ ?_ ?_⟩
      · exact fun data heq => by cases heq
      all_goals exact fun heq => by cases heq
  rw [step_crashed (Option.isSome_iff_ne_none.mpr hc)]
  exact ⟨fun _ => roomy_of_crashed hc e, fun _ => h⟩

/-- In a run the batches arrive, all and in order, exactly when every batch
finds room in the channel and in the queue, and every `Flush` an empty
queue. -/
theorem batches_kept_iff (p : System) (height : Int)
    (preCheck : Option PreCheckFunc) (postCheck : Option PostCheckFunc)
    (es : List Event) :
    (∀ before, before.IsPrefix es →
      Lossless (p.runEvents (p.init height preCheck postCheck) before))
      ↔ Along (fun before e =>
        Roomy p (p.runEvents (p.init height preCheck postCheck) before) e) []
        es := by
  refine forall_prefix_iff_along (I := fun before =>
      Lossless (p.runEvents (p.init height preCheck postCheck) before))
    ⟨rfl, rfl, rfl⟩ ?_ es
  intro before e h
  rw [p.runEvents_concat]
  exact h.step_iff e

-- ==== a full queue

lemma queue_le (p : System) (height : Int) (preCheck : Option PreCheckFunc)
    (postCheck : Option PostCheckFunc) (es : List Event) :
    (p.runEvents (p.init height preCheck postCheck)
      es).batchQueue.length ≤ maxQueueSize := by
  induction es using reverseRecOn with
  | nil => exact Nat.zero_le _
  | append_singleton es e ih =>
    rw [p.runEvents_concat]
    have hs := step_node p (p.runEvents (p.init height preCheck postCheck) es) e
    revert hs
    generalize p.step _ e = n'
    intro hs
    cases hs with
    | enqueue hp hroom =>
      rw [length_append]
      exact hroom
    | flushQueue => exact Nat.zero_le _
    | _ => exact ih

namespace Solo

def batch : BatchTransactions := ⟨[system.hash [7]], 0⟩

def round : List Event :=
  [.frame (system.hash [7]), .getNextBatch, .precheck, .enqueue, .lockMap,
    .forward conn, .unlockMap, .notify]

def known : Node :=
  system.runEvents (system.init 1 none none) [.checkTx conn [7], .respond 0 accepted, .callback 0]

/-- The transaction is known, and the poller is at a given point. -/
structure At (poller : Poller) (polled : List (BatchTransactions × Bool)) (n : Node) : Prop where
  pool : n.pool = known.pool
  map : n.txsByHash = known.txsByHash
  poller : n.poller = poller
  chan : n.txChan = []
  free : n.locked = false
  polled : n.polled = polled

variable {n : Node} {polled : List (BatchTransactions × Bool)}

lemma At.arrive (h : At .idle polled n) :
    At (.complete batch) (polled ++ [(batch, true)]) (system.runEvents n
      [.frame (system.hash [7]), .getNextBatch, .precheck]) := by
  obtain ⟨pool, txsByHash, batchQueue, txChan, poller⟩ := n
  obtain ⟨rfl, rfl, rfl, rfl, rfl, rfl⟩ := h
  exact ⟨rfl, rfl, rfl, rfl, rfl, rfl⟩

lemma At.enqueue (h : At (.complete batch) polled n) :
    At .idle polled (system.step n .enqueue)
      ∨ At (.queued batch) polled (system.step n .enqueue) := by
  have hlive : ¬ n.pool.crashed.isSome = true := by
    rw [h.pool]
    decide
  simp only [System.step, if_neg hlive, System.enqueue, h.poller, h.free]
  by_cases hfull : maxQueueSize ≤ n.batchQueue.length
  · rw [if_pos hfull]
    exact .inl ⟨h.pool, h.map, rfl, h.chan, rfl, h.polled⟩
  rw [if_neg hfull]
  exact .inr ⟨h.pool, h.map, rfl, h.chan, rfl, h.polled⟩

lemma At.finish (h : At .idle polled n ∨ At (.queued batch) polled n) :
    At .idle polled
      (system.runEvents n [.lockMap, .forward conn, .unlockMap, .notify]) := by
  obtain ⟨pool, txsByHash, batchQueue, txChan, poller⟩ := n
  cases h with
  | inl h | inr h =>
    obtain ⟨rfl, rfl, rfl, rfl, rfl, rfl⟩ := h
    exact ⟨rfl, rfl, rfl, rfl, rfl, rfl⟩

/-- Every time the batch arrives it is found complete. -/
lemma At.rounds (k : Nat) (h : At .idle polled n) :
    At .idle (polled ++ List.replicate k (batch, true))
    (system.runEvents n (List.replicate k round).flatten) := by
  induction k generalizing n polled with
  | zero => simpa [runEvents] using h
  | succ k ih =>
    have hround := ih (At.finish h.arrive.enqueue)
    rw [append_assoc] at hround
    exact hround

end Solo

/-- A client's transaction is accepted, and 101 batches with its hash
arrive: the last one, though its hash was known, is not queued. -/
theorem batches_kept_fails :
    ¬ ∀ (p : System) (height : Int) (preCheck : Option PreCheckFunc)
      (postCheck : Option PostCheckFunc) (es : List Event),
      (∀ e ∈ es, e ≠ .flush ∧ e ≠ .flushQueue ∧ e ≠ .flushPool) → Lossless
      (p.runEvents (p.init height preCheck postCheck) es) := by
  intro hall
  let rounds := (replicate 101 round).flatten
  let es : List Event := [.checkTx conn [7], .respond 0 accepted, .callback 0] ++ rounds
  have hes : ∀ e ∈ es, e ≠ .flush ∧ e ≠ .flushQueue ∧ e ≠ .flushPool := by
    intro e he
    have hmem : e ∈ [Event.checkTx conn [7], .respond 0 accepted, .callback 0] ∨ e ∈ round := by
      rcases mem_append.mp he with he | he
      · exact .inl he
      obtain ⟨l, hl, he⟩ := mem_flatten.mp he
      exact .inr (eq_of_mem_replicate hl ▸ he)
    refine ⟨?_, ?_, ?_⟩ <;>
    · intro heq
      subst heq
      simp [Solo.round] at hmem
  have hknown : Solo.At .idle [] known := ⟨rfl, rfl, rfl, rfl, rfl, rfl⟩
  have hat := hknown.rounds 101
  have hrun : system.runEvents (system.init 1 none none) es
      = system.runEvents known rounds := foldl_append
  have hlen := congrArg length (hall system 1 none none es hes).queue
  have hle := queue_le system 1 none none es
  rw [hrun] at hlen hle
  rw [hat.polled, hat.poller] at hlen
  simp only [unqueued, append_nil, nil_append] at hlen
  rw [← hlen] at hle
  exact absurd hle (by decide)

end HetuEngine.Mempool
