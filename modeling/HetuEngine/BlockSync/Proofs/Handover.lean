/-
When block sync hands over to consensus.

`poolRoutine` leaves block sync when the pool is caught up, or when the other
validators have no more than two thirds of the power. It compares the power
of the node with a truncated third of the total, so a node whose power is
this third leaves too early unless the total is a multiple of three.
-/
import HetuEngine.BlockSync.Proofs.Certified

namespace HetuEngine.BlockSync

open Comet

/-- The power of the validators other than the one with the address. -/
def powerOfOthers (vals : ReceivedSet) (address : Bytes) : Int :=
  vals.totalVotingPower - ((vals.getByAddress address).map fun found => found.2.votingPower).getD 0

variable {localAddr : Bytes} {state : Blocks.State}

/-- The node's power is the truncated third of a total that three does not
divide. -/
def OnTheBoundary (localAddr : Bytes) (state : Blocks.State) : Prop :=
  ∃ i val, state.validators.getByAddress localAddr = some (i, val)
    ∧ val.votingPower = state.validators.totalVotingPower / 3
    ∧ ¬3 ∣ state.validators.totalVotingPower

lemma tdiv_three (state : Blocks.State) :
    state.validators.totalVotingPower.tdiv 3
      = state.validators.totalVotingPower / 3 :=
  Int.tdiv_eq_ediv_of_nonneg (ReceivedSet.totalVotingPower_nonneg _)

lemma others_le_of_blocks (hoff : ¬OnTheBoundary localAddr state)
    (h : localNodeBlocksTheChain localAddr state = true) :
    3 * powerOfOthers state.validators localAddr
      ≤ 2 * state.validators.totalVotingPower := by
  unfold localNodeBlocksTheChain at h
  unfold powerOfOthers
  split at h
  · cases h
  next i val hval =>
  rw [hval]
  show 3 * (_ - val.votingPower) ≤ _
  rw [decide_eq_true_eq, tdiv_three] at h
  by_cases heq : val.votingPower = state.validators.totalVotingPower / 3
  · have hdvd : 3 ∣ state.validators.totalVotingPower := by
      by_contra hnot
      exact hoff ⟨i, val, hval, heq, hnot⟩
    omega
  omega

lemma blocks_of_onTheBoundary (h : OnTheBoundary localAddr state) :
    localNodeBlocksTheChain localAddr state = true
      ∧ 2 * state.validators.totalVotingPower
        < 3 * powerOfOthers state.validators localAddr := by
  obtain ⟨i, val, hval, hpower, hnot⟩ := h
  unfold localNodeBlocksTheChain powerOfOthers
  rw [hval]
  refine ⟨decide_eq_true (by rw [tdiv_three, hpower]), ?_⟩
  show _ < 3 * (_ - val.votingPower)
  omega

/-- With blocks synced, only a negative height keeps the routine from looking
at the pool. -/
lemma missingExtension_synced (h : 0 ≤ state.lastBlockHeight) :
    missingExtension 1 true state = .ok false := by
  unfold missingExtension ABCIParams.voteExtensionsEnabled
  split
  · rfl
  rw [if_neg (by omega)]
  split
  · rfl
  simp [Except.map]

/-- For a state and the address of the node: whatever the pool, the time and
what was synced, the node leaves block sync only if the pool is caught up or
the other validators have at most two thirds of the power; exactly if it is
not on the boundary. -/
theorem hands_over_iff (P : Type) [DecidableEq P] (localAddr : Bytes)
    (state : Blocks.State) :
    (∀ (blocksSynced : Nat) (initialCommitHasExtensions : Bool)
      (pool : BlockPool P Blocks.Block ExtendedCommit) (now : Time),
      switchesToConsensus localAddr blocksSynced initialCommitHasExtensions
      pool state now = .ok true → pool.isCaughtUp now = true ∨ 3 *
      powerOfOthers state.validators localAddr ≤ 2 *
      state.validators.totalVotingPower)
      ↔ state.lastBlockHeight < 0 ∨ ¬OnTheBoundary localAddr state := by
  constructor
  · intro h
    by_contra hnot
    obtain ⟨hheight, hon⟩ := not_or.mp hnot
    obtain ⟨hblocks, hlt⟩ := blocks_of_onTheBoundary (not_not.mp hon)
    -- a pool without peers is not caught up
    have hswitch : switchesToConsensus (P := P) localAddr 1 true (.new 0 0) state 0 = .ok true := by
      unfold switchesToConsensus
      rw [missingExtension_synced (not_lt.mp hheight), hblocks]
      rfl
    rcases h 1 true (.new 0 0) 0 hswitch with hcaught | hle
    · cases hcaught
    omega
  intro h blocksSynced initialCommitHasExtensions pool now hswitch
  unfold switchesToConsensus at hswitch
  cases hmissing : missingExtension blocksSynced initialCommitHasExtensions state with
  | error p =>
    rw [hmissing] at hswitch
    cases hswitch
  | ok missing =>
    rw [hmissing] at hswitch
    injection hswitch with hswitch
    simp only [Bool.and_eq_true, Bool.or_eq_true] at hswitch
    rcases h with hneg | hoff
    · unfold missingExtension ABCIParams.voteExtensionsEnabled at hmissing
      rw [if_neg (by omega), if_pos (by omega)] at hmissing
      cases hmissing
    exact hswitch.2.imp_right (others_le_of_blocks hoff)

/-- The node has one of four shares of the power, and the other validator has
three. It leaves block sync without any peer. -/
theorem hands_over_early : let state := { Reactor.syncState 0 with validators := sampleValidators }
    switchesToConsensus (P := Nat) (sampleKey 2) 0 false (.new 1 0) state 0 = .ok true
    ∧ (BlockPool.new 1 0 : BlockPool Nat Blocks.Block ExtendedCommit).isCaughtUp 0 = false
    ∧ powerOfOthers state.validators (sampleKey 2) = 3
    ∧ state.validators.totalVotingPower = 4 := by
  decide

end HetuEngine.BlockSync
