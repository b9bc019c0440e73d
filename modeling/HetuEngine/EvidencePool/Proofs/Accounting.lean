/-
What the evidence pool counts.

`Size` is a counter beside the database, and `CheckEvidence` verifies and adds
evidence of a light client attack even if it is pending: "there could be a
different conflicting block with the same hash". Then the key is written
again, but the counter goes up. In a run without such calls the counter is
the number of pending keys; the rest of the bookkeeping is right in any run.
-/
import HetuEngine.EvidencePool.Proofs.Framing
import HetuEngine.EvidencePool.Proofs.Store

namespace HetuEngine.EvidencePool.Pool

open Comet

/-- In every run in which `CheckEvidence` gets no evidence of a light client
attack that is pending, the size is the number of pending keys, nothing is
both pending and committed, and what is on the list is pending. -/
theorem pool_accounts (c : Verifier) (enc : Encoding) (node : Node)
    {calls : List Call} (honce : OnceRun c enc calls (empty node))
    {pool : Pool} (hrun : (empty node).run c enc calls = some pool) :
    pool.evidenceSize = UInt32.ofNat pool.pending.length
      ∧ (pool.pending.map (Evidence.key enc)).Nodup
      ∧ (∀ ev, pool.isPending enc ev = true → pool.isCommitted enc ev = false)
      ∧ ∀ ev ∈ pool.evidenceList, pool.isPending enc ev = true := by
  obtain ⟨hsane, hcounted⟩ := run_spec (sane_empty node) hrun
  refine ⟨hcounted honce rfl, hsane.sorted.nodup, fun ev hev => ?_, hsane.listed⟩
  obtain ⟨e, he, hkey⟩ := List.mem_map.mp (isPending_iff.mp hev)
  rw [Bool.eq_false_iff, ne_eq, isCommitted_iff, ← hkey]
  exact hsane.disjoint e he

def sampleAttackCheck : Call :=
  .checkEvidence [.lightClientAttack (sampleAttack 1 [sampleValidator 1 10])]

/-- The votes are added and checked, with the attack and without it, and
then committed. -/
def sampleAccounts : List Call :=
  [.addEvidence (.duplicateVote (sampleVotes 0)),
    .checkEvidence [.duplicateVote (sampleVotes 0),
      .lightClientAttack (sampleAttack 1 [sampleValidator 1 10])],
    .checkEvidence [.duplicateVote (sampleVotes 0)],
    .update (sampleNode 3) [.duplicateVote (sampleVotes 0)]]

theorem attack_checked_once :
    ((empty (sampleNode 2)).run sampleVerifier sampleEncoding
      sampleAccounts).any (fun pool => pool.evidenceSize = 1) = true
    ∧ ∀ pool, (empty (sampleNode 2)).run sampleVerifier sampleEncoding
        sampleAccounts = some pool →
      pool.evidenceSize = UInt32.ofNat pool.pending.length := by
  refine ⟨by decide +kernel, fun pool hrun =>
    (pool_accounts _ _ _ ?_ hrun).1⟩
  decide +kernel

/-- The attack is checked again: one key is pending, and the size is two. -/
theorem attack_checked_twice :
    ((empty (sampleNode 2)).run sampleVerifier sampleEncoding
      [sampleAttackCheck, sampleAttackCheck]).any (fun pool =>
      pool.evidenceSize = 2 ∧ pool.pending.length = 1) = true := by
  decide +kernel

end HetuEngine.EvidencePool.Pool
