/-
Agreement: no two nodes of a network finalize different blocks at a height.

The ballots of a height, in the order in which they are signed, are
disciplined (`Reach.disciplined`): a voter goes forward in rounds and steps,
it precommits what it has seen +2/3 prevotes for, and its locks are what the
rules of `Lib.Locking` ask of its prevotes. A call of `finalizeCommit` rests
on +2/3 precommits for the hash of its block, and by `Locking.agreement` two
such majorities are for one hash.
-/
import HetuEngine.Comet.Proofs.Network
import HetuEngine.Comet.Proofs.Steps
import Mathlib.Logic.Equiv.Nat

namespace HetuEngine.Comet

open Lib Lib.Locking Signed

namespace Network

variable {ι : Type} [DecidableEq ι] {net : Network ι} {c : Crypto}
  {B : PartSetHeader → Block → Prop} {H : List Signed} {V : ι → Voter}
  {x : ι} {k : Cause} {n : Voter}

-- ==== discipline

lemma Reach.own_ballot (h : net.Reach c B H V) {key : Bytes}
    (hkey : net.pubKey x = some key) {height : Int} {a : Ballot Bytes Bytes}
    (ha : a ∈ ballots height H) (hvoter : a.voter = key) :
    ∃ e ∈ (V x).signed, e.vote.height = height ∧ e.ballot = a := by
  obtain ⟨e, he, hheight, rfl⟩ := mem_ballots.mp ha
  obtain ⟨y, hy⟩ := (h.mem_iff e).mp he
  have hkey' : net.pubKey y = some key := hvoter ▸ (h.local y).signed e hy
  obtain rfl := net.pubKey_inj y x key hkey' hkey
  exact ⟨e, hy, hheight, rfl⟩

/-- A vote that was signed before is before the one that is signed now. -/
lemma before_of_pos {e sg : Signed} (hheight : e.vote.height = sg.vote.height)
    (he : e.vote.type = .prevote ∨ e.vote.type = .precommit)
    (hsg : sg.vote.type = .prevote ∨ sg.vote.type = .precommit)
    (hlt : e.pos < sg.pos) : e.ballot.before sg.ballot := by
  unfold pos at hlt
  rw [Prod.Lex.toLex_lt_toLex, Prod.Lex.toLex_lt_toLex] at hlt
  rcases hlt with hlt | ⟨-, hround | ⟨hround, hstep⟩⟩
  · exact absurd hlt (hheight ▸ lt_irrefl _)
  · exact .inl hround
  refine .inr ⟨hround, ?_⟩
  unfold ballot
  dsimp only at hstep ⊢
  rcases he with he | he <;> rcases hsg with hsg | hsg <;> rw [he, hsg] at hstep ⊢
  · exact absurd hstep (lt_irrefl _)
  · exact ⟨rfl, rfl⟩
  · exact absurd hstep (by decide)
  exact absurd hstep (lt_irrefl _)

lemma Reach.owes (h : net.Reach c B H V) {key : Bytes} {v : Vote}
    (hsigns : (V x).Signs n key v) :
    Owes (net.quorums v.height) [] (ballots v.height H)
      (ballot ⟨key, v, (V x).votes⟩) := by
  have hlocal := h.local x
  have hsound := hlocal.sound
  have hkey : net.pubKey x = some key := hlocal.pubKey key hsigns.pubKey
  have hheight := hsigns.height
  refine ⟨fun a ha hvoter => ?_, fun hphase hne => ?_, fun hphase a ha hvoter hpre hne hother => ?_⟩
  · obtain ⟨e, he, heheight, rfl⟩ := h.own_ballot hkey ha hvoter
    exact before_of_pos heheight (hsound.ordered.types e he) (hsigns.phase.imp And.left And.left)
      ((hsound.ordered.bounded e he).trans_lt hsigns.pos.1)
  · rcases hsigns.phase with ⟨htype, -⟩ | ⟨-, -, -, hid⟩
    · unfold ballot at hphase
      rw [htype] at hphase
      cases hphase
    unfold ballot at hne ⊢
    rw [hheight, hsigns.round]
    generalize v.blockID = id at hid hne
    cases hid with
    | nil => exact absurd rfl hne
    | locked hp hh hl hr => exact hlocal.majority hp
  obtain ⟨e, he, heheight, rfl⟩ := h.own_ballot hkey ha hvoter
  have htype : e.vote.type = .precommit := by
    rcases hsound.ordered.types e he with ht | ht
    · unfold ballot at hpre
      rw [ht] at hpre
      cases hpre
    exact ht
  rcases hsigns.phase with ⟨-, -, -, hid⟩ | ⟨hprecommit, -⟩
  · have hholds := hsound.locks.held e he (heheight.trans hheight) htype hne
    obtain ⟨round, id, hr, hr', hid', hmaj⟩ :=
      hholds.released_of_prevotes hid fun heq => hother heq.symm
    refine ⟨round, id.hash, hr, ?_, hid', ?_⟩
    · exact hr'.trans hsigns.round.ge
    rw [hheight]
    exact hlocal.majority hmaj
  unfold ballot at hphase
  rw [hprecommit] at hphase
  cases hphase

lemma Reach.disciplined (h : net.Reach c B H V) (height : Int) :
    Disciplined (net.quorums height) [] (ballots height H) := by
  induction h with
  | start => exact trivial
  | silent h hk hmove hsame ih => exact ih
  | @signs H V x k n key v h hk hmove hsigns ih =>
    unfold ballots
    rw [List.filter_cons]
    split
    · next hheight =>
      have hheight : v.height = height := by simpa using hheight
      subst hheight
      exact ⟨fun _ => h.owes hsigns, ih⟩
    exact ih

-- ==== finalization

/-- Every call of `finalizeCommit` rests on a majority of precommits. -/
lemma Reach.finalizing (h : net.Reach c B H V) (x : ι) :
    ∀ call ∈ (V x).finalizing, ∃ round id,
      call.block.map Block.hash = some id.hash ∧ id.hash ≠ []
      ∧ net.Backed c H call.height round .precommit id := by
  refine h.invariant (J := fun H _ n => ∀ call ∈ n.finalizing, ∃ round id,
    call.block.map Block.hash = some id.hash ∧ id.hash ≠ []
      ∧ net.Backed c H call.height round .precommit id) ?_ ?_ ?_ x
  · intro x call hcall
    cases hcall
  · intro H H' x n hsub hJ call hcall
    obtain ⟨round, id, hblock, hne, hbacked⟩ := hJ call hcall
    exact ⟨round, id, hblock, hne, hbacked.mono hsub⟩
  intro H V x k n hreach hk hmove hJ call hcall
  rcases hmove.finalizing_cases with
    hsame | ⟨new, id, hnew, hd, hne, hb, hheight, -, hblock, -⟩
  · exact hJ x call (hsame ▸ hcall)
  rw [hnew] at hcall
  rcases List.mem_cons.mp hcall with rfl | hcall
  · refine ⟨(V x).commitRound, id, hblock.trans hb, hne, ?_⟩
    rw [hheight]
    exact (hreach.local x).backed hd
  exact hJ x call hcall

end Network

/-- In every network, in which any events are delivered to any nodes in any
order, two nodes that call `finalizeCommit` at the same height do so with
blocks of the same hash. -/
theorem finalize_agreement {ι : Type} [DecidableEq ι] (c : Primitives)
    (net : Network ι) (hcanon : c.Canonical net.chainID)
    (ds : List (ι × Event)) (hds : net.Admissible c ds) (x y : ι)
    (call call' : FinalizeCall) (hx : call ∈ (net.run c ds x).finalizing)
    (hy : call' ∈ (net.run c ds y).finalizing)
    (hheight : call.height = call'.height) :
    call.block.map Block.hash = call'.block.map Block.hash := by
  obtain ⟨H, hreach⟩ := Network.run_reach (B := fun _ _ => True) hds hcanon
    (along_of_forall (fun _ _ _ _ _ => trivial) _ _)
  obtain ⟨round, id, hblock, hne, hbacked⟩ := hreach.finalizing x call hx
  obtain ⟨round', id', hblock', hne', hbacked'⟩ := hreach.finalizing y call' hy
  rw [hheight] at hbacked
  rw [hblock, hblock', agreement (hreach.disciplined _) hbacked.majority hne
    hbacked'.majority hne']

-- A node that is a validator with three quarters of the power and a node
-- that is none; the validator with the last quarter is faulty.

def SignedMsgType.code : SignedMsgType → UInt8
  | .unknown => 0
  | .prevote => 1
  | .precommit => 2
  | .proposal => 32

/-- Type, height, round and block id, one after the other. -/
def sampleSignBytes (v : Vote) : Bytes :=
  v.type.code :: (encodeVarint (Equiv.intEquivNat v.height)
      ++ (encodeVarint (Equiv.intEquivNat v.round) ++ (encodeVarint v.blockID.hash.length
          ++ (v.blockID.hash ++ v.blockID.partSetHeader.marshal))))

def canonicalPrimitives : Primitives :=
  { samplePrimitives with voteSignBytes := fun _ v => sampleSignBytes v }

lemma canonical_sample (chainID : String) :
    canonicalPrimitives.Canonical chainID := by
  intro v w h
  have hcode : ∀ a b : SignedMsgType, a.code = b.code → a = b := by
    intro a b
    cases a <;> cases b <;> decide
  injection (h : sampleSignBytes v = sampleSignBytes w) with htype h
  obtain ⟨hheight, h⟩ := encodeVarint_append_inj h
  obtain ⟨hround, h⟩ := encodeVarint_append_inj h
  obtain ⟨hlen, h⟩ := encodeVarint_append_inj h
  obtain ⟨hhash, hpsh⟩ := List.append_inj h hlen
  have hext : ∀ a b : BlockID, a.hash = b.hash → a.partSetHeader = b.partSetHeader → a = b := by
    rintro ⟨_, _⟩ ⟨_, _⟩ rfl rfl
    rfl
  exact ⟨hcode _ _ htype, Equiv.intEquivNat.injective hheight, Equiv.intEquivNat.injective hround,
    hext _ _ hhash (marshal_inj hpsh)⟩

def sampleNet : Network Bool where
  chainID := "hetu"
  validators _ := sampleValidators
  faulty p := p = sampleKey 2
  config _ := ⟨false, false, false, true⟩
  chain _ := sampleChain 0
  lastCommit _ := none
  pubKey x := if x then some (sampleKey 1) else none
  chain_chainID _ := rfl
  chain_validators _ := rfl
  faulty_power _ := by decide
  pubKey_inj x y key hx hy := by
    cases x with
    | false => cases hx
    | true =>
      cases y with
      | false => cases hy
      | true => rfl

def sampleProposal (b : UInt8) : Input :=
  .message (.proposal
    { type := .proposal
      height := 1
      round := 0
      polRound := -1
      blockID := sampleID b
      timestamp := 1
      signature := sampleKey 2 }) "peer"

def samplePart (bytes : Bytes) : Input :=
  .message (.blockPart 1 0 ⟨0, bytes, 1, 0, List.replicate 32 0, []⟩) "peer"

/-- The validator receives proposal and block, votes, and commits. -/
def validatorRun : List (Bool × Event) :=
  [.timeout ⟨1, 0, .newHeight⟩, sampleProposal 9, samplePart [7],
    .message (.vote (sampleVote .prevote 0 (sampleID 9) 0)) "",
    .message (.vote (sampleVote .precommit 0 (sampleID 9) 0)) ""].map
  fun input => (true, ⟨sampleEnv (sampleKey 1), input⟩)

/-- The other node receives a proposal, a block, and the precommit. -/
def observerRun (b : UInt8) (bytes : Bytes) : List (Bool × Event) :=
  [.timeout ⟨1, 0, .newHeight⟩, sampleProposal b, samplePart bytes,
    .message (.vote (sampleVote .precommit 0 (sampleID 9) 0)) "peer"].map
  fun input => (false, ⟨sampleEnv [], input⟩)

/-- A vote is the faulty validator's, or the other one has signed it. -/
def genuine (nodes : Bool → State) : Input → Bool
  | .message (.vote v) _ => v.signature = sampleKey 2
    || v.signature = sampleKey 1 && (nodes true).signed.any fun sg =>
      sg.pubKey = sampleKey 1 && sampleSignBytes sg.vote = sampleSignBytes v
  | _ => true

lemma admissible_of_genuine {net : Network Bool} {ds : List (Bool × Event)}
    (hfaulty : net.faulty (sampleKey 2) = true)
    (henv : ∀ d ∈ ds, d.2.env.getPubKey = none
      ∧ ∀ st id block st', d.2.env.applyVerifiedBlock st id block = some st' →
        st'.chainID = net.chainID
        ∧ st'.validators = net.validators st'.nextHeight)
    (h : Along (fun before d =>
      genuine (net.run canonicalPrimitives before) d.2.input = true) [] ds) :
    net.Admissible canonicalPrimitives ds := by
  refine (h.and_mem henv).imp fun before d hd => ⟨?_, hd.2.2, ?_⟩
  · intro v peerID hinput val _ hcorrect hsigned
    have hvote := hd.1
    have hkey : v.signature = val.pubKey := of_decide_eq_true hsigned
    simp only [hinput, genuine, hkey, Bool.or_eq_true, Bool.and_eq_true,
      decide_eq_true_eq, List.any_eq_true] at hvote
    rcases hvote with hkey | ⟨hkey, sg, hsg, hpub, hbytes⟩
    · rw [hkey, hfaulty] at hcorrect
      cases hcorrect
    exact ⟨true, sg, hsg, hpub.trans hkey.symm, hbytes⟩
  intro key hkey
  rw [hd.2.1] at hkey
  cases hkey

lemma admissible_sample (b : UInt8) (bytes : Bytes)
    (h : Along (fun before d =>
      genuine (sampleNet.run canonicalPrimitives before) d.2.input = true) []
      (validatorRun ++ observerRun b bytes)) :
    sampleNet.Admissible canonicalPrimitives
      (validatorRun ++ observerRun b bytes) := by
  refine admissible_of_genuine rfl (fun d hd => ?_) h
  have henv : ∃ key, d.2.env = sampleEnv key := by
    rcases List.mem_append.mp hd with hd | hd <;>
      obtain ⟨input, -, rfl⟩ := List.mem_map.mp hd <;> exact ⟨_, rfl⟩
  obtain ⟨key, henv⟩ := henv
  rw [henv]
  refine ⟨rfl, fun st id block st' happly => ?_⟩
  obtain rfl := Option.some.inj happly
  exact ⟨rfl, rfl⟩

/-- Both nodes finalize the block that the faulty validator proposed. -/
theorem finalize_agreement_sample :
    ∃ call ∈ (sampleNet.run canonicalPrimitives
      (validatorRun ++ observerRun 9 [7]) true).finalizing, ∃ call' ∈
      (sampleNet.run canonicalPrimitives (validatorRun ++ observerRun 9 [7])
        false).finalizing, call.block.map Block.hash = call'.block.map
      Block.hash := by
  obtain ⟨call, hcall, hheight⟩ : ∃ call ∈ (sampleNet.run
      canonicalPrimitives (validatorRun ++ observerRun 9 [7]) true).finalizing,
      call.height = 1 := by decide +kernel
  obtain ⟨call', hcall', hheight'⟩ : ∃ call ∈ (sampleNet.run
      canonicalPrimitives (validatorRun ++ observerRun 9 [7])
        false).finalizing, call.height = 1 := by decide +kernel
  exact ⟨call, hcall, call', hcall', finalize_agreement canonicalPrimitives
    sampleNet (canonical_sample _) _
    (admissible_sample 9 [7] (by decide +kernel)) true false call call' hcall
    hcall' (hheight.trans hheight'.symm)⟩

end HetuEngine.Comet
