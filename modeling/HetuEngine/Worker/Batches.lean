/-
The batches of a worker (worker/src/{batch_maker,quorum_waiter}.rs).

`BatchMaker` seals transactions into batches. `QuorumWaiter` takes the sealed
batches one after the other, and sends each on once enough stake has
acknowledged it. It looks at the stake only after an acknowledgement, so an
authority that is a quorum by itself still waits for one, and where nobody
else can acknowledge a batch it sends on nothing (`lone_batch_dropped`).
-/
import HetuEngine.Narwhal.Proofs.Thresholds

namespace HetuEngine.Worker

open Lib Lib.Weight Narwhal

abbrev Transaction := List UInt8

abbrev Batch := List Transaction

structure Setup where
  committee : Committee
  /-- The stake of this authority. -/
  stake : Nat
  /-- The names in `workers_addresses`. -/
  workers : List PublicKey
  batchSize : Nat

structure Wait where
  batch : Batch
  /-- Those who have not acknowledged it, `wait_for_quorum`. -/
  handlers : List PublicKey
  totalStake : Nat
  /-- Those who have. -/
  acks : List PublicKey

structure State where
  currentBatch : Batch
  currentBatchSize : Nat
  /-- The channel to `QuorumWaiter`. -/
  queue : List Batch
  wait : Option Wait
  /-- What was sent on, with the acknowledgements of each batch. -/
  forwarded : List (Batch × List PublicKey)
  /-- All that was sealed. -/
  sealed : List Batch

inductive Event where
  | transaction (tx : Transaction)
  | timer
  /-- `QuorumWaiter` takes the next batch from the channel. -/
  | recv
  | ack (name : PublicKey)
  /-- No handler is left. -/
  | exhausted

def Event.received : Event → List Transaction
  | .transaction tx => [tx]
  | _ => []

def State.init : State := ⟨[], 0, [], none, [], []⟩

def State.seal (s : State) : State :=
  { s with
    currentBatch := []
    currentBatchSize := 0
    queue := s.queue ++ [s.currentBatch]
    sealed := s.sealed ++ [s.currentBatch] }

namespace Setup

variable (p : Setup)

/-- One turn of `BatchMaker::run` or `QuorumWaiter::run`, where it can
happen. -/
def step (s : State) : Event → Option State
  | .transaction tx =>
    let s := { s with
      currentBatch := s.currentBatch ++ [tx]
      currentBatchSize := s.currentBatchSize + tx.length }
    some (if p.batchSize ≤ s.currentBatchSize then s.seal else s)
  | .timer => some (if s.currentBatch = [] then s else s.seal)
  | .recv =>
    match s.wait, s.queue with
    | none, batch :: queue => some { s with queue, wait := some ⟨batch, p.workers, p.stake, []⟩ }
    | _, _ => none
  | .ack name => s.wait.bind fun w =>
    let totalStake := u32 (w.totalStake + p.committee.stake name)
    let acks := w.acks ++ [name]
    let handlers := w.handlers.erase name
    if name ∉ w.handlers then none
    else if p.committee.quorumThreshold ≤ totalStake then
      some { s with wait := none, forwarded := s.forwarded ++ [(w.batch, acks)] }
    else some { s with wait := some { w with handlers, totalStake, acks } }
  | .exhausted => s.wait.bind fun w =>
    if w.handlers = [] then some { s with wait := none } else none

def run (es : List Event) : Option State := es.foldlM p.step .init

def weight (names : List PublicKey) : Nat := p.stake + weigh p.committee.stake names

/-- The last acknowledgement made the quorum. -/
structure Quorum (acks : List PublicKey) : Prop where
  reached : p.committee.quorumThreshold ≤ p.weight acks
  first : p.weight acks.dropLast < p.committee.quorumThreshold
  distinct : acks.Subperm p.workers

structure Waits (w : Wait) : Prop where
  totalStake : w.totalStake = p.weight w.acks
  below : p.weight w.acks < p.committee.quorumThreshold
  perm : (w.acks ++ w.handlers).Perm p.workers

/-- The transactions are those of the batches, and the batches are sent on
in order, each when it has a quorum. -/
structure Sound (txs : List Transaction) (s : State) : Prop where
  received : s.sealed.flatten ++ s.currentBatch = txs
  order : s.forwarded.map Prod.fst ++ s.wait.toList.map Wait.batch ++ s.queue = s.sealed
  quorum : ∀ f ∈ s.forwarded, p.Quorum f.2
  waits : ∀ w ∈ s.wait, p.Waits w

variable {p} {s s' : State} {txs : List Transaction}

lemma weight_concat (acks : List PublicKey) (name : PublicKey) :
    p.weight (acks ++ [name]) = p.weight acks + p.committee.stake name := by
  simp [weight, weigh, Nat.add_assoc]

lemma Sound.seal (h : p.Sound txs s) : p.Sound txs s.seal where
  received := by simpa [State.seal] using h.received
  order := by simp [State.seal, ← h.order]
  quorum := h.quorum
  waits := h.waits

section

variable (hown : p.stake < p.committee.quorumThreshold)
  (hall : p.committee.quorumThreshold ≤ p.weight p.workers) (hfit : p.weight p.workers < 2 ^ 32)

include hfit in
/-- The acknowledged stake does not wrap. -/
lemma Waits.ack {w : Wait} {name : PublicKey} (h : p.Waits w)
    (hname : name ∈ w.handlers) :
    u32 (w.totalStake + p.committee.stake name) = p.weight (w.acks ++ [name])
      ∧ ((w.acks ++ [name]) ++ w.handlers.erase name).Perm p.workers := by
  have hperm : ((w.acks ++ [name]) ++ w.handlers.erase name).Perm
      p.workers := by
    rw [List.append_assoc]
    exact ((List.perm_cons_erase hname).symm.append_left _).trans h.perm
  refine ⟨?_, hperm⟩
  have hle : p.weight (w.acks ++ [name]) ≤ p.weight p.workers := by
    simp only [weight, weigh, ← (hperm.map _).sum_eq, List.map_append, List.sum_append]
    omega
  rw [h.totalStake, ← weight_concat]
  exact word_of_lt (hle.trans_lt hfit)

include hown hall hfit

lemma Sound.step {e : Event} (h : p.Sound txs s)
    (hstep : p.step s e = some s') : p.Sound (txs ++ e.received) s' := by
  obtain ⟨hreceived, horder, hquorum, hwaits⟩ := h
  -- only a transaction adds to what was received
  have hsame : s.sealed.flatten ++ s.currentBatch = txs ++ [] := by rw [hreceived, List.append_nil]
  cases e with
  | transaction tx =>
    have hpushed : p.Sound (txs ++ [tx]) { s with
        currentBatch := s.currentBatch ++ [tx]
        currentBatchSize := s.currentBatchSize + tx.length } :=
      ⟨by simp [← hreceived], horder, hquorum, hwaits⟩
    cases hstep
    split
    · exact hpushed.seal
    exact hpushed
  | timer =>
    have hkept : p.Sound (txs ++ []) s := ⟨hsame, horder, hquorum, hwaits⟩
    cases hstep
    split
    · exact hkept
    exact hkept.seal
  | recv =>
    dsimp only [Setup.step] at hstep
    split at hstep
    · next batch queue hwait hqueue =>
      cases hstep
      rw [hwait, hqueue] at horder
      refine ⟨hsame, by simpa using horder, hquorum, fun w hw => ?_⟩
      cases hw
      exact ⟨rfl, hown, .rfl⟩
    cases hstep
  | ack name =>
    obtain ⟨w, hwait, hstep⟩ := Option.bind_eq_some_iff.mp hstep
    have hw := hwaits w hwait
    dsimp only at hstep
    split at hstep
    · cases hstep
    next hname =>
    obtain ⟨htotal, hperm⟩ := hw.ack hfit (not_not.mp hname)
    rw [hwait] at horder
    rw [htotal] at hstep
    split at hstep
    · next hreached =>
      cases hstep
      refine ⟨hsame, by simpa using horder, fun f hf => ?_,
        fun w hw => by cases hw⟩
      rcases List.mem_append.mp hf with hf | hf
      · exact hquorum f hf
      rw [List.mem_singleton.mp hf]
      refine ⟨hreached, ?_, (List.sublist_append_left _ _).subperm.trans hperm.subperm⟩
      rw [List.dropLast_concat]
      exact hw.below
    next hbelow =>
    cases hstep
    refine ⟨hsame, by simpa using horder, hquorum, fun w hw => ?_⟩
    cases hw
    exact ⟨rfl, not_le.mp hbelow, hperm⟩
  | exhausted =>
    -- all have acknowledged the batch, so it had a quorum before
    obtain ⟨w, hwait, hstep⟩ := Option.bind_eq_some_iff.mp hstep
    split at hstep
    · next hnil =>
      obtain ⟨-, hbelow, hperm⟩ := hwaits w hwait
      rw [hnil, List.append_nil] at hperm
      have hweight : p.weight w.acks = p.weight p.workers :=
        congrArg (p.stake + ·) (hperm.map _).sum_eq
      omega
    cases hstep

/-- In every run of a worker with less than a quorum of its own, the batches
are those of the transactions, and each is sent on in order as soon as the
acknowledgements make a quorum. -/
theorem batches_forwarded (es : List Event)
    (h : p.run es = some s) : p.Sound (es.flatMap Event.received) s := by
  induction es using List.reverseRecOn generalizing s with
  | nil =>
    cases h
    exact ⟨rfl, rfl, List.forall_mem_nil _, fun w hw => by cases hw⟩
  | append_singleton es e ih =>
    unfold run at h
    rw [List.foldlM_append] at h
    obtain ⟨mid, hmid, hlast⟩ := Option.bind_eq_some_iff.mp h
    rw [List.flatMap_append, List.flatMap_singleton]
    refine (ih hmid).step hown hall hfit ?_
    simpa using hlast

end

def pair : Setup where
  committee := ⟨⟨[(0, ⟨1, [0], unit_stake_lt⟩), (1, ⟨1, [0], unit_stake_lt⟩)], by simp⟩⟩
  stake := 1
  workers := [1]
  batchSize := 1

theorem batches_forwarded_pair :
    ∃ s, pair.run [.transaction [7], .recv, .ack 1] = some s
      ∧ s.forwarded = [([[7]], [1])] ∧ pair.Sound [[7]] s :=
  ⟨_, rfl, rfl, batches_forwarded (by decide) (by decide) (by decide)
    [.transaction [7], .recv, .ack 1] rfl⟩

/-- The batch of an authority that has no others to wait for. -/
theorem lone_batch_dropped :
    (Setup.run ⟨.solo, 1, [], 1⟩ [.transaction [7], .recv, .exhausted]).map
      (fun s => (s.sealed, s.forwarded, s.queue, s.wait.isNone))
      = some ([[[7]]], [], [], true)
      ∧ Committee.solo.quorumThreshold ≤ Committee.solo.stake 0 :=
  ⟨rfl, by decide⟩

end Setup

end HetuEngine.Worker
