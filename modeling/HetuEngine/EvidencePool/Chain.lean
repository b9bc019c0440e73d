/-
The chain that nodes verify evidence against, and what accepted evidence
is, seen from the chain.

Nodes have different parts of one chain: each has its own last state, and
its stores hold some of the headers, commits and validator sets (`Node.On`).
-/
import HetuEngine.EvidencePool.Verify

namespace HetuEngine.EvidencePool

open Comet

/-- A chain: what the blocks of each height agree on. -/
structure Chain where
  chainID : String
  header : Int → Header
  /-- the last commit of the next block -/
  commit : Int → Commit
  validators : Int → ValidatorSet
  time_mono : ∀ h h', h ≤ h' → (header h).time ≤ (header h').time

/-- What a node has is part of the chain. -/
structure Node.On (node : Node) (chain : Chain) : Prop where
  chainID : node.chainID = chain.chainID
  header : ∀ h header, node.loadBlockMeta h = some header → header = chain.header h
  commit : ∀ h commit, node.loadBlockCommit h = some commit → commit = chain.commit h
  validators : ∀ h vals, node.loadValidators h = some vals → vals = chain.validators h
  lastBlockTime : node.lastBlockTime = (chain.header node.lastBlockHeight).time
  lastValidators : node.lastValidators = chain.validators node.lastBlockHeight

def Chain.signedHeader (chain : Chain) (height : Int) : SignedHeader :=
  ⟨chain.header height, chain.commit height⟩

section

variable {chain : Chain} {node : Node} {c : Verifier} {enc : Encoding}

lemma Node.On.signedHeader (hon : node.On chain) {height : Int}
    {sh : SignedHeader} (h : node.getSignedHeader height = .ok sh) :
    sh = chain.signedHeader height := by
  unfold Node.getSignedHeader at h
  split at h
  · cases h
  next header hheader =>
  split at h
  · cases h
  next commit hcommit =>
  cases h
  rw [hon.header _ _ hheader, hon.commit _ _ hcommit]
  rfl

/-- The node has the block of the evidence, with the time of the evidence,
and it is not too old. -/
def Node.Recent (node : Node) (ev : Evidence) : Prop :=
  ∃ header, node.loadBlockMeta ev.height = some header ∧ ev.time = header.time ∧ isEvidenceExpired
    node.lastBlockHeight node.lastBlockTime ev.height ev.time node.params = false

/-- `verify` rejects what is not recent, and otherwise goes by the kind of
the evidence. -/
lemma Node.verify_cases (c : Verifier) (enc : Encoding) (node : Node)
    (ev : Evidence) :
    (node.Recent ev ∧ node.verify c enc ev = node.verifyKind c enc ev)
      ∨ (¬node.Recent ev
        ∧ ∃ e, node.verify c enc ev = .error e ∧ e.isPanic = false) := by
  unfold Node.Recent Node.verify
  cases node.loadBlockMeta ev.height with
  | none =>
    refine .inr ⟨?_, _, rfl, rfl⟩
    rintro ⟨header, h, -⟩
    cases h
  | some header =>
    dsimp only
    by_cases htime : ev.time = header.time
    · rw [if_neg (not_not.mpr htime), ← htime]
      cases hold : isEvidenceExpired node.lastBlockHeight
          node.lastBlockTime ev.height ev.time node.params with
      | false => exact .inl ⟨⟨header, rfl, htime, rfl⟩, rfl⟩
      | true =>
        refine .inr ⟨?_, _, rfl, rfl⟩
        rintro ⟨-, -, -, h⟩
        cases h
    rw [if_pos htime]
    refine .inr ⟨?_, _, rfl, rfl⟩
    rintro ⟨header', h, htime', -⟩
    cases h
    exact htime htime'

lemma Node.verify_ok {ev : Evidence} : node.verify c enc ev = .ok ()
    ↔ node.Recent ev ∧ node.verifyKind c enc ev = .ok () := by
  rcases node.verify_cases c enc ev with ⟨hrecent, h⟩ | ⟨hold, e, h, -⟩
  · rw [h]
    exact (and_iff_right hrecent).symm
  rw [h]
  exact iff_of_false (fun h => nomatch h) (fun h => hold h.1)

/-- What `VerifyDuplicateVote` accepts: two different signed votes of a
validator, with the powers of the set. -/
structure Duplicate (c : Crypto) (e : DuplicateVoteEvidence)
    (chainID : String) (valSet : ReceivedSet) (idx : Nat) (val : Validator) :
    Prop where
  found : valSet.getByAddress e.voteA.validatorAddress = some (idx, val)
  height : e.voteA.height = e.voteB.height
  round : e.voteA.round = e.voteB.round
  type : e.voteA.type = e.voteB.type
  address : e.voteA.validatorAddress = e.voteB.validatorAddress
  blockID : e.voteA.blockID ≠ e.voteB.blockID
  pubKey : c.address val.pubKey = e.voteA.validatorAddress
  validatorPower : e.validatorPower = val.votingPower
  totalVotingPower : e.totalVotingPower = valSet.totalVotingPower
  signedA : c.signed chainID val.pubKey e.voteA = true
  signedB : c.signed chainID val.pubKey e.voteB = true

lemma verifyDuplicateVote_ok {c : Crypto} {e : DuplicateVoteEvidence}
    {chainID : String} {valSet : ReceivedSet}
    (h : verifyDuplicateVote c e chainID valSet = .ok ()) :
    ∃ idx val, Duplicate c e chainID valSet idx val := by
  unfold verifyDuplicateVote at h
  split at h
  · cases h
  next idx val hfound =>
  simp only [Lib.Fallible.ite_error_eq_ok, not_or, ne_eq, not_not] at h
  obtain ⟨hhrs, haddress, hid, hkey, hpower, htotal, hA, hB, -⟩ := h
  exact ⟨idx, val, hfound, hhrs.1, hhrs.2.1, hhrs.2.2, haddress, hid, hkey,
    hpower.symm, htotal.symm, by simpa using hA, by simpa using hB⟩

/-- A duplicate vote that a node accepts, in terms of the chain. -/
lemma Node.On.duplicateVote (hon : node.On chain)
    {dve : DuplicateVoteEvidence}
    (h : node.verify c enc (.duplicateVote dve) = .ok ()) :
    dve.timestamp = (chain.header dve.height).time
      ∧ ∃ idx val, Duplicate c.toCrypto dve chain.chainID
        (chain.validators dve.height) idx val := by
  obtain ⟨⟨header, hheader, htime, -⟩, h⟩ := Node.verify_ok.mp h
  unfold Node.verifyKind at h
  dsimp only at h
  split at h
  · cases h
  next valSet hvals =>
  rw [hon.validators _ _ hvals, hon.chainID] at h
  have hsame := hon.header _ _ hheader
  exact ⟨htime.trans (congrArg Header.time hsame), verifyDuplicateVote_ok h⟩

end

-- ==== a small chain

/-- The bytes of a vote are its time, and the signature of a message is the
key with the message. -/
def sampleVerifier : Verifier where
  address := id
  verifySignature pubKey msg sig := sig = pubKey ++ msg
  voteSignBytes _ v := (if v.timestamp < 0 then 1 else 0) :: List.replicate v.timestamp.natAbs 0
  voteExtensionSignBytes _ _ := []
  keyType _ := .secp256k1
  batchAdd _ _ _ _ := false
  batchVerify _ _ := (false, [])

/-- Hashes of headers that tell the length of the data hash, and an encoding
of votes that tells the index of the first one. -/
def sampleEncoding : Encoding where
  sum := id
  header h := List.replicate 31 0 ++ [UInt8.ofNat h.dataHash.length]
  validators vals := List.replicate 31 0 ++ [UInt8.ofNat vals.validators.length]
  duplicateVote d := UInt8.ofNat d.voteA.validatorIndex.toNat :: List.replicate 42 0

def sampleValidator (byte : UInt8) (power : Int) : Validator :=
  ⟨List.replicate 20 byte, List.replicate 20 byte, power, 0⟩

def sampleValidators : ValidatorSet where
  validators := [sampleValidator 1 10, sampleValidator 2 1]
  proposer := some (sampleValidator 1 10)
  power_pos := by decide
  addresses_nodup := by decide
  total_le := by decide

def sampleHeader (height : Int) (time : Time) (dataHash : Bytes) : Header where
  version := ⟨11, 0⟩
  chainID := "chain"
  height := height
  time := time
  lastBlockID := BlockID.zero
  lastCommitHash := []
  dataHash := dataHash
  validatorsHash := sampleEncoding.validators sampleValidators
  nextValidatorsHash := []
  consensusHash := []
  appHash := []
  lastResultsHash := []
  evidenceHash := []
  proposerAddress := List.replicate 20 1

def sampleSig (name key : UInt8) : CommitSig :=
  ⟨.commit, List.replicate 20 name, 0, List.replicate 20 key ++ [0]⟩

def sampleCommit (header : Header) (sigs : List CommitSig) : Commit :=
  ⟨header.height, 0, ⟨sampleEncoding.header header, ⟨1, List.replicate 32 1⟩⟩, sigs⟩

/-- A chain with a block every two seconds, all signed by both
validators. -/
def sampleChain : Chain where
  chainID := "chain"
  header height := sampleHeader height (2 * 10 ^ 9 * height) []
  commit height := sampleCommit (sampleHeader height (2 * 10 ^ 9 * height) [])
    [sampleSig 1 1, sampleSig 2 2]
  validators _ := sampleValidators
  time_mono _ _ h := Int.mul_le_mul_of_nonneg_left h (by decide)

def sampleNode (lastBlockHeight : Int) : Node where
  loadBlockMeta height := some (sampleChain.header height)
  loadBlockCommit height := some (sampleChain.commit height)
  height := lastBlockHeight
  loadValidators height := some (sampleChain.validators height)
  chainID := "chain"
  lastBlockHeight := lastBlockHeight
  lastBlockTime := 2 * 10 ^ 9 * lastBlockHeight
  lastValidators := sampleValidators
  params := ⟨10, 10⟩

lemma sampleNode_on (lastBlockHeight : Int) :
    (sampleNode lastBlockHeight).On sampleChain where
  chainID := rfl
  header := by
    intro h header hheader
    cases hheader
    rfl
  commit := by
    intro h commit hcommit
    cases hcommit
    rfl
  validators := by
    intro h vals hvals
    cases hvals
    rfl
  lastBlockTime := rfl
  lastValidators := rfl

/-- Two prevotes of the first validator, for nothing and for a block; the first
one says that the validator has some index. -/
def sampleVotes (index : Int) : DuplicateVoteEvidence where
  voteA := ⟨.prevote, 1, 0, BlockID.zero, 0, List.replicate 20 1, index,
    List.replicate 20 1 ++ [0], [], []⟩
  voteB := ⟨.prevote, 1, 0, ⟨List.replicate 32 1, ⟨1, List.replicate 32 1⟩⟩, 0,
    List.replicate 20 1, 0, List.replicate 20 1 ++ [0], [], []⟩
  totalVotingPower := 11
  validatorPower := 10
  timestamp := 2 * 10 ^ 9

end HetuEngine.EvidencePool
