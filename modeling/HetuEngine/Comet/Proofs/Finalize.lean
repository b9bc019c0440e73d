/-
When the checks of `finalizeCommit` hold.

`enterCommit` and `tryFinalizeCommit` compare the hash of the proposal block
only; `finalizeCommit` panics unless its part set has the header of the
majority too. One block may have several encodings, since what follows a
decoded block in its bytes is skipped, and each has its own part set. A faulty
proposer that sends two of them makes a node panic that holds the one that
was not voted for (`finalize_panics`).

Where every block is decoded from one part set only, whoever decodes it (`enc`
gives the header for a hash), the checks hold: correct validators vote for
hashes with those headers, so a majority has them, and so do the proposal
block and the lock of every node (`Encoded`).
-/
import HetuEngine.Comet.Proofs.Agreement

namespace HetuEngine.Comet

open Lib

variable {enc : Bytes → PartSetHeader}

def BlockID.Proper (enc : Bytes → PartSetHeader) (id : BlockID) : Prop :=
  id.hash ≠ [] → id.partSetHeader = enc id.hash

/-- What a voter holds, locks, signs and finalizes has the part set of its
hash. -/
structure Voter.Encoded (enc : Bytes → PartSetHeader) (n : Voter) : Prop where
  block : ∀ h, n.block = some h → h ≠ [] → ∃ p, n.parts = some p ∧ p.2 = enc h
  locked : ∀ h, n.locked = some h → h ≠ [] → ∃ p, n.lockedParts = some p ∧ p.2 = enc h
  signed : ∀ e ∈ n.signed, e.vote.blockID.Proper enc
  finalizing : ∀ call ∈ n.finalizing, call.agrees = true
  panicked : ∀ p, n.panicked = some p → p.finalizes = false

namespace Voter

variable {n n' : Voter} {c : Crypto} {k : Cause}

variable {parts : Option (Nat × PartSetHeader)} {id : BlockID}

lemma headerAt_of_some {header : PartSetHeader}
    (h : ∃ p, parts = some p ∧ p.2 = header) : headerAt parts = header := by
  obtain ⟨p, rfl, rfl⟩ := h
  rfl

lemma Encoded.prevotes (h : n.Encoded enc) (hid : n.Prevotes id) :
    id.Proper enc := by
  intro hne
  cases hid with
  | locked hl => exact headerAt_of_some (h.locked _ hl hne)
  | nil hl => exact absurd rfl hne
  | proposal hl hb hh => exact headerAt_of_some (h.block _ hb hne)

lemma precommits
    (hmaj : ∀ round type id, VoteSet.twoThirdsMajority
      (n.votes.getVoteSet round type) = some id →
      id.Proper enc)
    (hid : n.Precommits id) : id.Proper enc := by
  cases hid with
  | nil => exact fun hne => absurd rfl hne
  | locked hp hh hl hr => exact hmaj _ .prevote _ hp

lemma Encoded.emit (h : n.Encoded enc) {type : SignedMsgType}
    {out : Option (Bytes × Vote)} (hid : id.Proper enc)
    (ho : n.Casts type id out) : (n.emit out).Encoded enc := by
  cases out with
  | none => exact h
  | some kv =>
    refine { h with signed := fun e he => ?_ }
    rcases List.mem_cons.mp he with rfl | he
    · obtain ⟨-, -, -, -, hblock⟩ := ho kv.1 kv.2 rfl
      exact hblock ▸ hid
    exact h.signed e he

lemma Encoded.commits (h : n.Encoded enc) {block : Option Bytes}
    (hc : n.Commits id block parts) (x : Bytes) (hx : block = some x)
    (hne : x ≠ []) : ∃ p, parts = some p ∧ p.2 = enc x := by
  cases hc with
  | locked hl => exact h.locked x hx hne
  | proposal hb | waiting hp hh => exact h.block x hx hne
  | fetch i => cases hx

/-- A call with the majority's block and parts agrees with it. -/
lemma agrees_of_header {call : FinalizeCall}
    (hcommit : call.commit = some id)
    (hblock : call.block.map Block.hash = some id.hash) (hne : id.hash ≠ [])
    (hparts : call.parts = some id.partSetHeader) : call.agrees = true := by
  unfold FinalizeCall.agrees
  rw [hcommit]
  dsimp only
  rw [hashesTo_iff.mpr ⟨hne, hblock⟩, hparts]
  simp

lemma Encoded.move (h : n.Encoded enc)
    (hmaj : ∀ round type id, VoteSet.twoThirdsMajority
      (n.votes.getVoteSet round type) = some id →
      id.Proper enc)
    (hblocks : ∀ header b, k.block header b → b.hash ≠ [] →
      header = enc b.hash)
    (hmove : n.Move c k n') : n'.Encoded enc := by
  cases hmove with
  | newRound round hr hc =>
    refine { h with block := fun x hx hne => ?_ }
    dsimp only at hx ⊢
    split at hx
    · cases hx
    next hzero =>
    rw [if_neg hzero]
    exact h.block x hx hne
  | prevote hs hid ho => exact { h.emit (h.prevotes hid) ho with }
  | precommit hs hid ho => exact { h.emit (precommits hmaj hid) ho with }
  | unlock hp hr hl hne => exact { h with locked := fun x hx => by cases hx }
  | lock hs hp hh hl hb => exact { h with locked := h.block }
  | fetch i hs hp => exact { h with block := fun x hx => by cases hx }
  | @valid id block parts hv hp hh hb hps hsome =>
    refine { h with block := fun x hx hne => ?_ }
    rcases hb with rfl | ⟨rfl, hblock⟩
    · cases hx
    obtain rfl := Option.some.inj (hblock.symm.trans hx)
    rcases hps with rfl | ⟨i, rfl, -⟩
    · exact h.block _ hblock hne
    exact ⟨_, rfl, hmaj _ .prevote _ hp hne⟩
  | @block p b hp hb =>
    refine { h with block := fun x hx hne => ?_ }
    obtain rfl := Option.some.inj hx
    exact ⟨p, hp, hblocks _ _ hb hne⟩
  | parts p hp =>
    refine { h with block := fun x hx hne => ?_ }
    obtain ⟨q, hq, -⟩ := h.block x hx hne
    rw [hp] at hq
    cases hq
  | commit hs hr hd hh hb => exact { h with block := h.commits hb }
  | @finalize id call hs hd hh hb hheight hcommit hblock hparts =>
    refine { h with finalizing := fun call' hcall => ?_ }
    rcases List.mem_cons.mp hcall with rfl | hcall
    · obtain ⟨p, hp, hheader⟩ := h.block _ hb hh
      refine agrees_of_header hcommit (hblock.trans hb) hh ?_
      rw [hparts, hp, hmaj _ .precommit _ hd hh, ← hheader]
      rfl
    exact h.finalizing call' hcall
  | nextHeight chainID vals ext key hs hn hkey =>
    exact { h with
      block := fun x hx => by cases hx
      locked := fun x hx => by cases hx }
  | abort p hp =>
    refine { h with panicked := fun q hq => ?_ }
    obtain rfl := Option.some.inj hq
    cases hf : p.finalizes with
    | false => rfl
    | true =>
      obtain ⟨call, hcall, hagrees⟩ := hp hf
      rw [h.finalizing call hcall] at hagrees
      cases hagrees
  | schedule ti hh hr hs | votes hg | advance step hs hstep
  | relock hs hp hl => exact { h with }

end Voter

namespace Network

variable {ι : Type} {net : Network ι} {c : Crypto} {H : List Signed} {V : ι → Voter}

/-- A majority contains a correct vote, so it is for a proper block id. -/
lemma Local.proper {x : ι} {n : Voter} (h : net.Local c H x n)
    (hH : ∀ e ∈ H, e.vote.blockID.Proper enc) {round : Int} {type : SignedMsgType} {id : BlockID}
    (hid : VoteSet.twoThirdsMajority (n.votes.getVoteSet round type)
    = some id) : id.Proper enc := by
  have hquorum := (h.backed hid).quorum
  obtain ⟨p, hp, -, hcorrect⟩ := (net.quorums n.height).common hquorum hquorum
  rcases hp with hf | ⟨e, he, -, -, -, -, hblock⟩
  · exact absurd hf hcorrect
  exact hblock ▸ hH e he

lemma Reach.encoded [DecidableEq ι]
    (h : net.Reach c (fun header b => b.hash ≠ [] → header = enc b.hash) H V)
    (x : ι) : (V x).Encoded enc := by
  refine h.invariant (J := fun _ _ n => n.Encoded enc) ?_ (fun _ _ _ _ _ hJ => hJ) ?_ x
  · intro x
    exact
      { block := fun h hx => by cases hx
        locked := fun h hx => by cases hx
        signed := List.forall_mem_nil _
        finalizing := List.forall_mem_nil _
        panicked := fun p hp => by cases hp }
  intro H V x k n hreach hk hmove hJ
  have hH : ∀ e ∈ H, e.vote.blockID.Proper enc := by
    intro e he
    obtain ⟨y, hy⟩ := (hreach.mem_iff e).mp he
    exact (hJ y).signed e hy
  exact (hJ x).move (fun _ _ _ hid => (hreach.local x).proper hH hid) hk.block hmove

end Network

/-- In every network in which each block that is decoded is decoded from the
part set that `enc` gives for its hash: whenever `finalizeCommit` is called,
the proposal block has the hash of the majority and its part set the
header, and none of the three checks panics. -/
theorem finalize_checks {ι : Type} [DecidableEq ι] (c : Primitives)
    (net : Network ι) (hcanon : c.Canonical net.chainID)
    (enc : Bytes → PartSetHeader) (ds : List (ι × Event))
    (hds : net.Admissible c ds)
    (henc : Along (fun before d =>
      ∀ header b, ((net.run c before d.1).cause c d.2).block header b →
        b.hash ≠ [] → header = enc b.hash) [] ds)
    (x : ι) :
    (∀ call ∈ (net.run c ds x).finalizing, call.agrees = true)
      ∧ ∀ p, (net.run c ds x).panicked = some p → p.finalizes = false := by
  obtain ⟨H, hreach⟩ := Network.run_reach
    (B := fun header b => b.hash ≠ [] → header = enc b.hash) hds hcanon henc
  have hencoded := hreach.encoded x
  exact ⟨hencoded.finalizing, hencoded.panicked⟩

/-- The part that arrives is of the part set that is precommitted. -/
def expectedPart (before : List (Bool × Event)) (d : Bool × Event) : Bool :=
  match d.2.input with
  | .message (.blockPart _ _ _) _ =>
    headerOf (sampleNet.run canonicalPrimitives before
      d.1).proposalBlockParts = ⟨1, List.replicate 32 9⟩
  | _ => true

/-- With one encoding, the observer finalizes. -/
theorem finalize_checks_sample :
    (∃ call ∈ (sampleNet.run canonicalPrimitives
      (validatorRun ++ observerRun 9 [7]) false).finalizing, call.height = 1)
      ∧ ∀ call ∈ (sampleNet.run canonicalPrimitives
        (validatorRun ++ observerRun 9 [7]) false).finalizing, call.agrees =
        true := by
  have hheaders : Along (fun before d => expectedPart before d = true) []
      (validatorRun ++ observerRun 9 [7]) := by
    decide +kernel
  refine ⟨by decide +kernel, (finalize_checks canonicalPrimitives sampleNet
    (canonical_sample _) (fun _ => ⟨1, List.replicate 32 9⟩)
    (validatorRun ++ observerRun 9 [7])
    (admissible_sample 9 [7] (by decide +kernel)) ?_ false).1⟩
  refine hheaders.imp fun before d hd header b hblock _ => ?_
  obtain ⟨_, _, _, _, ptr, _, hinput, -, hptr, rfl, -⟩ := hblock
  unfold expectedPart at hd
  rw [hinput, hptr] at hd
  exact of_decide_eq_true hd

/-- A correct node panics: it has the block in another encoding than the one
that three quarters of the power precommitted. -/
theorem finalize_panics :
    sampleNet.Admissible canonicalPrimitives
      (validatorRun ++ observerRun 8 [7, 0])
      ∧ (sampleNet.run canonicalPrimitives
        (validatorRun ++ observerRun 8 [7, 0]) false).panicked
        = some .finalizeHeader :=
  ⟨admissible_sample 8 [7, 0] (by decide +kernel), by decide +kernel⟩

end HetuEngine.Comet
