/-
Verification in one batch against verification one by one.

With a batch verifier that accepts just what single verification accepts, the
two end alike (`verifyCommitBatch_iff`), but for one check: only
`verifyCommitSingle` validates the slots it looks at. `Commit.ValidateBasic`
has done that for every commit, except one of height 0.
-/
import HetuEngine.Comet.Header
import HetuEngine.Comet.Proofs.Commit

namespace HetuEngine.Comet

open Lib ReceivedSet

variable {c : Verifier} {chainID : String} {vals : ReceivedSet} {commit : Commit}
  {rule : VerifyRule}

/-- Batch verification can be used for the set and the commit, which have
been validated: the batch verifier accepts what single verification accepts,
and the proposer has the key of the validator with its address. -/
structure BatchReady (c : Verifier) (vals : ReceivedSet) (commit : Commit) : Prop where
  lawful : c.Lawful
  empty : ∀ type, (c.batchVerify type []).1 = true
  validSet : vals.validateBasic c.toCrypto = true
  validCommit : commit.validateBasic = true
  usable : shouldBatchVerify c vals commit = .ok true
  keys : ∀ proposer, vals.proposer = some proposer → ∀ val ∈ vals.validators,
    val.address = proposer.address → val.pubKey = proposer.pubKey

/-- Different validators of the set, with more power than needed, signed. -/
def EnoughSigned (c : Verifier) (chainID : String) (vals : ReceivedSet) (commit : Commit)
    (rule : VerifyRule) : Prop :=
  ∃ entries : List Checked, (∀ e ∈ entries,
      Picked c chainID vals commit rule commit.signatures.zipIdx e
        ∧ c.verifySignature e.val.pubKey e.msg e.sig.signature = true ∧ rule.countSig e.sig = true)
    ∧ (entries.map Checked.valIdx).Nodup ∧ rule.votingPowerNeeded < checkedPower entries

lemma verifyCommitSingle_signed
    (h : verifyCommitSingle c chainID vals commit rule = .ok ()) :
    EnoughSigned c chainID vals commit rule := by
  obtain ⟨entries, hgather, hverified, hpower⟩ := singleLoop_gather h
  rw [Int.zero_add] at hpower
  refine ⟨rule.counted entries, ?_, ?_, hpower⟩
  · intro e he
    obtain ⟨he, hcount⟩ := List.mem_filter.mp he
    exact ⟨gather_picks hgather e he, hverified e he, hcount⟩
  have hnodup := (gather_nodup hgather (zipIdx_snd_nodup _)).1
  exact hnodup.sublist (List.filter_sublist.map _)

/-- The proposer and the keys that it is a batch for. -/
lemma BatchReady.proposer (h : BatchReady c vals commit) :
    ∃ proposer, vals.getProposer = some proposer
      ∧ (c.keyType proposer.pubKey).supportsBatchVerifier = true
      ∧ ¬ commit.signatures.length < batchVerifyThreshold
      ∧ ∀ val ∈ vals.validators, c.keyType val.pubKey
        = c.keyType proposer.pubKey := by
  have hvalid := h.validSet
  simp only [validateBasic, Bool.and_eq_true, decide_eq_true_eq, ne_eq,
    List.length_eq_zero_iff, Option.any_eq_true, List.any_eq_true] at hvalid
  obtain ⟨⟨hne, -⟩, proposer, hproposer, -, named, hnamed, haddress⟩ := hvalid
  have hget : vals.getProposer = some proposer := by
    rw [getProposer, if_neg hne, hproposer]
  have husable := h.usable
  unfold shouldBatchVerify at husable
  split at husable
  · cases husable
  next hlen =>
  rw [hget] at husable
  obtain ⟨htype, hsame⟩ := Bool.and_eq_true_iff.mp (Except.ok.inj husable)
  refine ⟨proposer, hget, htype, hlen, fun val hval => ?_⟩
  rw [← h.keys proposer hproposer named hnamed haddress]
  exact keyType_eq hsame hval hnamed

lemma BatchReady.agree (h : BatchReady c vals commit)
    (hbasic : ∀ sig ∈ commit.signatures, sig.validateBasic = true) :
    verifyCommitBatch c chainID vals commit rule = .ok ()
      ↔ verifyCommitSingle c chainID vals commit rule = .ok () := by
  obtain ⟨proposer, hproposer, htype, hlen, hkeys⟩ := h.proposer
  exact verifyCommitBatch_iff h.lawful hproposer htype hlen hkeys (.inr (h.empty _)) hbasic

-- ==== commits of height 0

def namelessCommit : Commit :=
  ⟨0, 0, sampleID 9, [⟨.commit, [], 0, sampleKey 1⟩, ⟨.commit, [], 0, sampleKey 2⟩]⟩

lemma namelessCommit_ready :
    BatchReady sampleVerifier sampleValidators.toReceivedSet
      namelessCommit where
  lawful := sampleVerifier_lawful
  empty _ := rfl
  validSet := by decide
  validCommit := by decide
  usable := by decide
  keys := by decide

lemma namelessCommit_verified :
    verifyCommitBatch sampleVerifier "hetu" sampleValidators namelessCommit
      (fullRule sampleValidators) = .ok ()
    ∧ verifyCommitSingle sampleVerifier "hetu" sampleValidators namelessCommit
      (fullRule sampleValidators) = .error (.invalidSignatures 0) := by
  decide

end HetuEngine.Comet
