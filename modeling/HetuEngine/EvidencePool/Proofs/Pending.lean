/-
Evidence that is proposed is valid, if nothing expires unnoticed.

`Update` looks for expired evidence only when the new height and time are
past those remembered from the last time, and these are later than the moment
at which the evidence that was oldest then expires. Evidence may also come
back from the store other than it went in, be built from votes that nobody
verified, or have been compared with a header that is not that of its height.

# The invariant

`Good` says that all pending evidence that can be decoded is accepted by the
chain, that the node still has what is needed to verify it, and that it is
not expired. What the chain accepts does not depend on the node
(`Chain.Accepts`), so a new state can only make evidence expire. Every call
keeps the invariant under the conditions of `Call.Careful`.
-/
import HetuEngine.EvidencePool.Chain
import HetuEngine.EvidencePool.Proofs.Store

namespace HetuEngine.EvidencePool

open Comet Node Pool

-- ==== verification by the chain

/-- The evidence is valid, whatever the node has and however old it is. -/
def Chain.Accepts (c : Verifier) (enc : Encoding) (chain : Chain) : Evidence → Prop
  | .duplicateVote dve =>
    dve.timestamp = (chain.header dve.height).time
      ∧ verifyDuplicateVote c.toCrypto dve chain.chainID (chain.validators dve.height) = .ok ()
  | .lightClientAttack l =>
    l.timestamp = (chain.header l.commonHeight).time
      ∧ verifyLightClientAttack c enc l (chain.signedHeader l.commonHeight)
      (chain.signedHeader l.conflictingBlock.height) (chain.validators l.commonHeight) = .ok ()

def Node.HasHeader (node : Node) (height : Int) : Prop :=
  (node.loadBlockMeta height).isSome = true ∧ (node.loadBlockCommit height).isSome = true

/-- The node has the block that the conflicting one is compared with. -/
def Node.Settled (node : Node) : Evidence → Prop
  | .duplicateVote _ => True
  | .lightClientAttack l => node.HasHeader l.conflictingBlock.height

/-- The node has all that the evidence is verified with. -/
def Node.Has (node : Node) (ev : Evidence) : Prop :=
  (node.loadBlockMeta ev.height).isSome = true ∧ (node.loadValidators ev.height).isSome = true
    ∧ (ev.isLight = true → node.HasHeader ev.height) ∧ node.Settled ev

def Node.Expired (node : Node) (ev : Evidence) : Prop :=
  Pool.isExpired node ev.height ev.time = true

instance (node : Node) (ev : Evidence) : Decidable (node.Expired ev) :=
  inferInstanceAs (Decidable (_ = true))

section

variable {c : Verifier} {enc : Encoding} {chain : Chain} {node node' : Node} {ev : Evidence}

lemma Node.isEvidenceExpired_eq :
    isEvidenceExpired node.lastBlockHeight node.lastBlockTime ev.height ev.time
      node.params = false
      ↔ ¬node.Expired ev := by
  unfold Node.Expired isExpired isEvidenceExpired
  rw [Bool.and_comm, Bool.not_eq_true]

variable {h : Int}

section

variable (hon : node.On chain)

include hon

lemma Node.On.loadBlockMeta (hsome : (node.loadBlockMeta h).isSome = true) :
    node.loadBlockMeta h = some (chain.header h) := by
  obtain ⟨header, hheader⟩ := Option.isSome_iff_exists.mp hsome
  rw [hheader, hon.header _ _ hheader]

lemma Node.On.loadValidators (hsome : (node.loadValidators h).isSome = true) :
    node.loadValidators h = some (chain.validators h) := by
  obtain ⟨vals, hvals⟩ := Option.isSome_iff_exists.mp hsome
  rw [hvals, hon.validators _ _ hvals]

lemma Node.On.getSignedHeader (hhas : node.HasHeader h) :
    node.getSignedHeader h = .ok (chain.signedHeader h) := by
  obtain ⟨hheader, hcommit⟩ := hhas
  obtain ⟨commit, hcommit⟩ := Option.isSome_iff_exists.mp hcommit
  unfold Node.getSignedHeader
  rw [hon.loadBlockMeta hheader, hcommit, hon.commit _ _ hcommit]
  rfl

lemma Node.On.trustedHeader {l : LightClientAttackEvidence}
    (hhas : node.HasHeader l.conflictingBlock.height) :
    node.trustedHeader (chain.signedHeader l.commonHeight) l
      = .ok (chain.signedHeader l.conflictingBlock.height) := by
  unfold Node.trustedHeader
  split
  next heq => rw [heq]
  · rw [hon.getSignedHeader hhas]

/-- A node that has what is needed accepts what the chain accepts, unless it
is expired. -/
lemma Node.On.verify_iff (hhas : node.Has ev) :
    node.verify c enc ev = .ok ()
      ↔ ¬node.Expired ev ∧ chain.Accepts c enc ev := by
  obtain ⟨hheader, hvals, hlight, hsettled⟩ := hhas
  have hrecent : node.Recent ev ↔ ev.time = (chain.header ev.height).time ∧ ¬node.Expired ev := by
    unfold Node.Recent
    rw [hon.loadBlockMeta hheader, isEvidenceExpired_eq]
    constructor
    · rintro ⟨header, hsome, htime, hold⟩
      cases hsome
      exact ⟨htime, hold⟩
    rintro ⟨htime, hold⟩
    exact ⟨_, rfl, htime, hold⟩
  rw [verify_ok, hrecent, and_right_comm, and_comm]
  refine and_congr_right fun _ => ?_
  unfold verifyKind
  cases ev with
  | duplicateVote dve =>
    have hvals : node.loadValidators dve.height
        = some (chain.validators dve.height) := hon.loadValidators hvals
    dsimp only
    rw [hvals, hon.chainID]
    rfl
  | lightClientAttack l =>
    have hvals : node.loadValidators l.commonHeight
        = some (chain.validators l.commonHeight) := hon.loadValidators hvals
    have hcommon : node.getSignedHeader l.commonHeight = .ok (chain.signedHeader l.commonHeight) :=
      hon.getSignedHeader (hlight rfl)
    dsimp only
    rw [hcommon, hvals]
    dsimp only
    rw [hon.trustedHeader hsettled]
    rfl

end

/-- Evidence that was accepted: the node has what is needed. -/
lemma Node.Has.of_verify (hok : node.verify c enc ev = .ok ())
    (hsettled : node.Settled ev) : node.Has ev := by
  obtain ⟨⟨header, hheader, -⟩, hkind⟩ := verify_ok.mp hok
  refine ⟨by rw [hheader]; rfl, ?_, fun hlight => ?_, hsettled⟩
  · unfold verifyKind at hkind
    cases ev with
    | duplicateVote dve =>
      dsimp only at hkind
      split at hkind
      · cases hkind
      next hvals =>
      change (node.loadValidators dve.height).isSome = true
      rw [hvals]
      rfl
    | lightClientAttack l =>
      dsimp only at hkind
      split at hkind
      · cases hkind
      split at hkind
      · cases hkind
      next hvals =>
      change (node.loadValidators l.commonHeight).isSome = true
      rw [hvals]
      rfl
  cases ev with
  | duplicateVote dve => cases hlight
  | lightClientAttack l =>
    unfold verifyKind getSignedHeader at hkind
    dsimp only at hkind
    split at hkind
    · cases hkind
    next hcommon =>
    split at hcommon
    · cases hcommon
    next hheader' =>
    split at hcommon
    · cases hcommon
    next hcommit =>
    change (node.loadBlockMeta l.commonHeight).isSome = true
      ∧ (node.loadBlockCommit l.commonHeight).isSome = true
    rw [hheader', hcommit]
    exact ⟨rfl, rfl⟩

end

-- ==== later nodes

/-- The stores of the later node have all that the earlier one had, but for
what is expired. -/
def Retains (chain : Chain) (node node' : Node) : Prop :=
  ∀ h, Pool.isExpired node' h (chain.header h).time = false →
    ((node.loadBlockMeta h).isSome = true → (node'.loadBlockMeta h).isSome = true)
    ∧ ((node.loadBlockCommit h).isSome = true → (node'.loadBlockCommit h).isSome = true)
    ∧ ((node.loadValidators h).isSome = true → (node'.loadValidators h).isSome = true)

section

variable {c : Verifier} {enc : Encoding} {chain : Chain} {node node' : Node} {ev ev' : Evidence}

lemma Chain.Accepts.time (h : chain.Accepts c enc ev) :
    ev.time = (chain.header ev.height).time := by
  cases ev with
  | duplicateVote dve => exact h.1
  | lightClientAttack l => exact h.1

/-- What is not older does not expire earlier. -/
lemma isExpired_mono {h h' : Int} (hle : h ≤ h')
    (hold : isExpired node h' (chain.header h').time = true) :
    isExpired node h (chain.header h).time = true := by
  have htime : ((chain.header h).time : Int) ≤ (chain.header h').time := chain.time_mono h h' hle
  unfold isExpired at hold ⊢
  simp only [Bool.and_eq_true, decide_eq_true_eq] at hold ⊢
  refine ⟨by omega, ?_⟩
  exact lt_of_lt_of_le hold.2 (Int.sub_le_sub_left htime _)

lemma expired_mono (ha : chain.Accepts c enc ev)
    (ha' : chain.Accepts c enc ev') (hle : ev.height ≤ ev'.height)
    (hold : node.Expired ev') : node.Expired ev := by
  unfold Node.Expired at hold ⊢
  rw [ha'.time] at hold
  rw [ha.time]
  exact isExpired_mono hle hold

lemma height_le_conflicting {l : LightClientAttackEvidence}
    (h : l.validateBasic c.toCrypto enc.header enc.validators = true) :
    l.commonHeight ≤ l.conflictingBlock.height := by
  unfold LightClientAttackEvidence.validateBasic at h
  simp only [Bool.and_eq_true, decide_eq_true_eq] at h
  exact h.1.2

/-- A later node still has what is needed for evidence that is not
expired. -/
lemma Node.Has.later (hhas : node.Has ev)
    (hbasic : ev.validateBasic c.toCrypto enc = true)
    (ha : chain.Accepts c enc ev) (hretains : Retains chain node node')
    (hfresh : ¬node'.Expired ev) : node'.Has ev := by
  obtain ⟨hheader, hvals, hlight, hsettled⟩ := hhas
  have hat : isExpired node' ev.height (chain.header ev.height).time = false := by
    rw [← ha.time]
    exact Bool.eq_false_iff.mpr hfresh
  have hkeep := hretains _ hat
  refine ⟨hkeep.1 hheader, hkeep.2.2 hvals, fun h =>
    ⟨hkeep.1 (hlight h).1, hkeep.2.1 (hlight h).2⟩, ?_⟩
  cases ev with
  | duplicateVote dve => trivial
  | lightClientAttack l =>
    have hconflicting := hretains l.conflictingBlock.height (by
      rw [Bool.eq_false_iff]
      intro hold
      have hle := height_le_conflicting hbasic
      rw [Bool.eq_false_iff] at hat
      exact hat (isExpired_mono hle hold))
    exact ⟨hconflicting.1 hsettled.1, hconflicting.2.1 hsettled.2⟩

end

-- ==== the conditions

/-- Two conflicting votes of one validator, as consensus finds them. -/
def Genuine (c : Crypto) (chain : Chain) (voteA voteB : Vote) : Prop :=
  ∃ idx val, (chain.validators voteA.height).getByAddress voteA.validatorAddress = some (idx, val)
    ∧ voteA.height = voteB.height ∧ voteA.round = voteB.round
    ∧ voteA.type = voteB.type
    ∧ voteA.validatorAddress = voteB.validatorAddress
    ∧ voteA.blockID ≠ voteB.blockID
    ∧ c.address val.pubKey = voteA.validatorAddress
    ∧ c.signed chain.chainID val.pubKey voteA = true
    ∧ c.signed chain.chainID val.pubKey voteB = true

namespace Pool

/-- What the node does: its states and stores are those of the chain. The
last block of a new state is in the stores, and what is not expired stays
there. -/
def Call.Legal (chain : Chain) (pool : Pool) : Call → Prop
  | .addEvidence _ => True
  | .checkEvidence _ => True
  | .reportConflictingVotes _ _ => True
  | .update node _ => node.On chain ∧ Retains chain pool.node node
      ∧ (node.loadBlockMeta node.lastBlockHeight).isSome = true
      ∧ (node.loadValidators node.lastBlockHeight).isSome = true
  | .store stores =>
    ({ pool.node with toStores := stores } : Node).On chain
      ∧ Retains chain pool.node { pool.node with toStores := stores }
  | .restart node => node.On chain ∧ Retains chain pool.node node

/-- Evidence that is verified can be put into the pool: if it is accepted, it
does not list nil as its validators, the node has the block that the
conflicting one is compared with, and the counter does not overflow. -/
def Safe (c : Verifier) (enc : Encoding) (pool : Pool) (ev : Evidence) : Prop :=
  pool.isCommitted enc ev = false → pool.node.verify c enc ev = .ok () →
    ev.stored = ev ∧ pool.node.Settled ev
      ∧ pool.evidenceSize.toNat + 1 < 2 ^ 32

/-- The conditions under which no evidence becomes invalid: evidence that is
verified is safe, votes that are reported are genuine, and evidence that is
left by an update and expired in the new state is noticed, because the height
and time to prune at are passed. -/
def Call.Careful (c : Verifier) (enc : Encoding) (chain : Chain)
    (pool : Pool) : Call → Prop
  | .addEvidence ev => pool.isPending enc ev = false → pool.Safe c enc ev
  | .checkEvidence evList => EachTurn c enc (fun pool ev =>
      (ev.isLight || !pool.isPending enc ev) = true → pool.Safe c enc ev)
      evList [] pool
  | .reportConflictingVotes voteA voteB => Genuine c.toCrypto chain voteA voteB
  | .update node evidence =>
    (∀ ev ∈ (pool.updated enc node evidence).pending,
      ev.validateBasic c.toCrypto enc = true → node.Expired ev →
      pool.pruningHeight < node.lastBlockHeight
        ∧ pool.pruningTime < node.lastBlockTime)
    ∧ pool.evidenceSize.toNat + pool.consensusBuffer.length < 2 ^ 32
  | .store _ => True
  | .restart _ => True

/-- All calls of a run are legal and careful. -/
def CarefulRun (c : Verifier) (enc : Encoding) (chain : Chain) :
    List Call → Pool → Prop :=
  EachCall c enc fun pool call =>
    call.Legal chain pool ∧ call.Careful c enc chain pool

-- ==== the invariant

/-- The pending evidence is valid in the state of the node. -/
structure Good (c : Verifier) (enc : Encoding) (chain : Chain) (pool : Pool) : Prop where
  on : pool.node.On chain
  sane : pool.Sane enc
  counted : pool.pending.length ≤ pool.evidenceSize.toNat
  valid : ∀ ev ∈ pool.pending, ev.validateBasic c.toCrypto enc = true →
    chain.Accepts c enc ev ∧ pool.node.Has ev ∧ ¬pool.node.Expired ev
  buffer : ∀ votes ∈ pool.consensusBuffer, Genuine c.toCrypto chain votes.1 votes.2

section

variable {c : Verifier} {enc : Encoding} {chain : Chain} {pool pool' : Pool}

lemma toNat_succ {n : UInt32} (h : n.toNat + 1 < 2 ^ 32) :
    (n + 1).toNat = n.toNat + 1 := by
  rw [UInt32.toNat_add, UInt32.toNat_one, Nat.mod_eq_of_lt h]

lemma toNat_pred {n : UInt32} (h : 0 < n.toNat) :
    (n - 1).toNat = n.toNat - 1 :=
  UInt32.toNat_sub_of_le n 1 (by
    rw [UInt32.le_iff_toNat_le, UInt32.toNat_one]
    exact h)

variable {ev : Evidence}

/-- Removing evidence that is pending takes at least one off the list. -/
lemma length_removePending_le (hpending : pool.isPending enc ev = true)
    (hcounted : pool.pending.length ≤ pool.evidenceSize.toNat) :
    (pool.removePendingEvidence enc ev).pending.length
    ≤ (pool.removePendingEvidence enc ev).evidenceSize.toNat := by
  obtain ⟨e, he, hkey⟩ := List.any_eq_true.mp hpending
  have hlt : (pool.pending.filter fun e => e.key enc ≠ ev.key enc).length < pool.pending.length :=
    List.length_filter_lt_length_iff_exists.mpr ⟨e, he, by simpa using of_decide_eq_true hkey⟩
  unfold removePendingEvidence
  dsimp only
  rw [toNat_pred (by omega)]
  omega

section

variable (h : Good c enc chain pool)

include h

lemma good_add (hsafe : pool.Safe c enc ev)
    (hnew : pool.isCommitted enc ev = false)
    (hok : pool.node.verify c enc ev = .ok ()) :
    Good c enc chain (pool.addPendingEvidence enc ev) := by
  obtain ⟨hstored, hsettled, hsize⟩ := hsafe hnew hok
  refine ⟨h.on, (Change.add ev hnew (.inl trivial)).sane h.sane, ?_, ?_, h.buffer⟩
  · have hlength := @length_setPending_le enc ev.stored pool.pending
    have hcounted := h.counted
    unfold addPendingEvidence
    dsimp only
    rw [toNat_succ hsize]
    omega
  intro e he hvalid
  rcases mem_setPending he with rfl | he
  · rw [hstored] at hvalid ⊢
    have hhas := Node.Has.of_verify hok hsettled
    obtain ⟨hfresh, haccepts⟩ := (h.on.verify_iff hhas).mp hok
    exact ⟨haccepts, hhas, hfresh⟩
  exact h.valid e he hvalid

lemma good_addEvidence
    (hsafe : pool.isPending enc ev = false → pool.Safe c enc ev)
    (hadd : pool.addEvidence c enc ev = .ok pool') :
    Good c enc chain pool' := by
  have hsane := (changes_addEvidence hadd : Changes enc True pool pool').sane h.sane
  unfold addEvidence at hadd
  split at hadd
  · cases hadd
    exact h
  next hpending =>
  split at hadd
  · cases hadd
    exact h
  next hnew =>
  split at hadd
  · cases hadd
  next hok =>
  cases hadd
  have hgood := good_add h (hsafe (Bool.eq_false_iff.mpr hpending))
    (Bool.eq_false_iff.mpr hnew) hok
  exact ⟨hgood.on, hsane, hgood.counted, hgood.valid, hgood.buffer⟩

/-- One turn of `CheckEvidence`. -/
lemma good_checkOne (hsafe : (ev.isLight || !pool.isPending enc ev) = true →
      pool.Safe c enc ev)
    (hcheck : pool.checkOne c enc ev = .ok pool') :
    Good c enc chain pool' := by
  unfold checkOne at hcheck
  split at hcheck
  next hverified =>
    split at hcheck
    · cases hcheck
    next hnew =>
    split at hcheck
    · cases hcheck
    next hok =>
    cases hcheck
    exact good_add h (hsafe hverified) (Bool.eq_false_iff.mpr hnew) hok
  cases hcheck
  exact h

end

variable {evs : List Evidence} {dve : DuplicateVoteEvidence} {size : List Evidence → Int}

lemma good_checkLoop {hashes : List Bytes} (h : Good c enc chain pool)
    (hsafe : EachTurn c enc (fun pool ev =>
      (ev.isLight || !pool.isPending enc ev) = true → pool.Safe c enc ev)
      evs hashes pool) :
    Good c enc chain (checkLoop c enc evs hashes pool).1 := by
  induction evs generalizing hashes pool with
  | nil => exact h
  | cons ev evs ih =>
    unfold checkLoop
    unfold EachTurn at hsafe
    cases hone : pool.checkOne c enc ev with
    | error e => exact h
    | ok pool' =>
      rw [hone] at hsafe
      have hgood := good_checkOne h hsafe.1 hone
      dsimp only
      split
      · exact hgood
      next hnew => exact ih hgood (hsafe.2 (Bool.eq_false_iff.mpr hnew))

-- ==== an update

lemma verifyDuplicateVote_of {e : DuplicateVoteEvidence} {chainID : String}
    {valSet : ReceivedSet} {idx : Nat} {val : Validator}
    (h : Duplicate c.toCrypto e chainID valSet idx val) :
    verifyDuplicateVote c.toCrypto e chainID valSet = .ok () := by
  unfold verifyDuplicateVote
  rw [h.found]
  dsimp only
  rw [if_neg (by simp [h.height, h.round, h.type]),
    if_neg (not_not.mpr h.address), if_neg h.blockID,
    if_neg (not_not.mpr h.pubKey), if_neg (not_not.mpr h.validatorPower.symm),
    if_neg (not_not.mpr h.totalVotingPower.symm), if_neg (by simp [h.signedA]),
    if_neg (by simp [h.signedB])]

lemma accepts_of_genuine {voteA voteB : Vote}
    (h : Genuine c.toCrypto chain voteA voteB)
    (hnew : newDuplicateVoteEvidence voteA voteB
      (chain.header voteA.height).time
      (chain.validators voteA.height) = some dve) :
    dve.height = voteA.height ∧ chain.Accepts c enc (.duplicateVote dve) := by
  obtain ⟨idx, val, hfound, hheight, hround, htype, haddress, hid, hkey, hA, hB⟩ := h
  unfold newDuplicateVoteEvidence at hnew
  rw [hfound] at hnew
  dsimp only at hnew
  split at hnew
  · cases hnew
    exact ⟨rfl, rfl, verifyDuplicateVote_of ⟨hfound, hheight, hround, htype,
      haddress, hid, hkey, rfl, rfl, hA, hB⟩⟩
  cases hnew
  refine ⟨hheight.symm, ?_, ?_⟩
  · exact congrArg (fun h => (chain.header h).time) hheight
  dsimp only [DuplicateVoteEvidence.height]
  rw [← hheight]
  rw [haddress] at hfound
  exact verifyDuplicateVote_of ⟨hfound, hheight.symm,
    hround.symm, htype.symm, haddress.symm, hid.symm, hkey.trans haddress, rfl, rfl, hB, hA⟩

variable {node : Node}

/-- What is made of the buffered votes can be verified by the new node. -/
lemma bufferedEvidence_valid (hon : node.On chain)
    (hheader : (node.loadBlockMeta node.lastBlockHeight).isSome = true)
    (hvals : (node.loadValidators node.lastBlockHeight).isSome = true)
    {votes : Vote × Vote}
    (hgenuine : Genuine c.toCrypto chain votes.1 votes.2)
    (h : bufferedEvidence node votes = some dve) :
    chain.Accepts c enc (.duplicateVote dve)
      ∧ node.Has (.duplicateVote dve) := by
  have hhas : ∀ height, dve.height = height → (node.loadBlockMeta height).isSome = true
      → (node.loadValidators height).isSome = true → node.Has (.duplicateVote dve) := by
    rintro height rfl hheader hvals
    exact ⟨hheader, hvals, fun hlight => (nomatch hlight), trivial⟩
  unfold bufferedEvidence at h
  split at h
  next heq =>
    rw [hon.lastBlockTime, hon.lastValidators, ← heq] at h
    obtain ⟨hheight, haccepts⟩ := accepts_of_genuine hgenuine h
    exact ⟨haccepts, hhas _ (hheight.trans heq) hheader hvals⟩
  split at h
  · split at h
    · cases h
    next valSet hvals =>
    split at h
    · cases h
    next header hheader =>
    rw [hon.header _ _ hheader, hon.validators _ _ hvals] at h
    obtain ⟨hheight, haccepts⟩ := accepts_of_genuine hgenuine h
    exact ⟨haccepts, hhas _ hheight (by rw [hheader]; rfl) (by rw [hvals]; rfl)⟩
  cases h

/-- Evidence that is pending after the bookkeeping of an update was pending
before, or is made of the buffered votes. -/
lemma updated_forall {P : Evidence → Prop}
    (hpending : ∀ ev ∈ pool.pending, P ev)
    (hbuffer : ∀ votes ∈ pool.consensusBuffer, ∀ dve, bufferedEvidence node
      votes = some dve →
      P (.duplicateVote dve))
    (evidence : List Evidence) :
    ∀ ev ∈ (pool.updated enc node evidence).pending, P ev := by
  refine List.foldlRecOn evidence (markCommitted enc)
    (motive := fun pool => ∀ ev ∈ pool.pending, P ev) ?_ fun pool h e _ => ?_
  · refine List.foldlRecOn pool.consensusBuffer (processVotes enc node)
      (motive := fun pool => ∀ ev ∈ pool.pending, P ev) hpending fun pool h votes hmem => ?_
    unfold processVotes
    split
    · exact h
    next dve hdve =>
    dsimp only
    split
    · exact h
    split
    · exact h
    intro ev hev
    rcases mem_setPending hev with rfl | hev
    · exact hbuffer votes hmem dve hdve
    exact h ev hev
  unfold markCommitted
  split
  · exact fun ev hev => h ev (mem_removePending.mp hev).1
  exact h

/-- What the bookkeeping of an update leaves as it is, and that it counts
right. -/
structure Kept (pool pool' : Pool) : Prop where
  node : pool'.node = pool.node
  buffer : pool'.consensusBuffer = pool.consensusBuffer
  height : pool'.pruningHeight = pool.pruningHeight
  time : pool'.pruningTime = pool.pruningTime
  counted : pool'.pending.length ≤ pool'.evidenceSize.toNat

lemma Kept.processVotes (h : Kept pool pool')
    (hsize : pool'.evidenceSize.toNat + 1 < 2 ^ 32) (votes : Vote × Vote) :
    Kept pool (processVotes enc node pool' votes)
      ∧ (processVotes enc node pool' votes).evidenceSize.toNat
        ≤ pool'.evidenceSize.toNat + 1 := by
  unfold Pool.processVotes
  split
  · exact ⟨h, Nat.le_succ _⟩
  next dve hdve =>
  dsimp only
  split
  · exact ⟨h, Nat.le_succ _⟩
  split
  · exact ⟨h, Nat.le_succ _⟩
  have hsucc := toNat_succ (n := pool'.evidenceSize) hsize
  have hlength := @length_setPending_le enc (Evidence.duplicateVote dve).stored pool'.pending
  have hcounted := h.counted
  refine ⟨⟨h.node, h.buffer, h.height, h.time, ?_⟩, hsucc.le⟩
  unfold pushBack addPendingEvidence
  dsimp only
  omega

lemma Kept.markCommitted (h : Kept pool pool') (e : Evidence) :
    Kept pool (markCommitted enc pool' e) := by
  unfold Pool.markCommitted
  split
  next hpending =>
    exact { h with counted := length_removePending_le hpending h.counted }
  · exact { h with }

lemma kept_updated (evidence : List Evidence)
    (hcounted : pool.pending.length ≤ pool.evidenceSize.toNat)
    (hsize : pool.evidenceSize.toNat + pool.consensusBuffer.length < 2 ^ 32) :
    Kept { pool with node := node, consensusBuffer := [] } (pool.updated enc node evidence) := by
  have hvotes : ∀ (buffer : List (Vote × Vote)) (pool' : Pool),
      Kept pool pool' → pool'.evidenceSize.toNat + buffer.length < 2 ^ 32 →
      Kept pool (buffer.foldl (processVotes enc node) pool') := by
    intro buffer
    induction buffer with
    | nil => intro pool' h _; exact h
    | cons votes buffer ih =>
      intro pool' h hsize
      rw [List.length_cons] at hsize
      obtain ⟨hkept, hle⟩ := h.processVotes (by omega) votes
      exact ih _ hkept (by omega)
  have h := hvotes _ pool ⟨rfl, rfl, rfl, rfl, hcounted⟩ hsize
  exact List.foldlRecOn evidence (markCommitted enc)
    ⟨rfl, rfl, h.height, h.time, h.counted⟩ fun _ h e _ => h.markCommitted e

-- ==== pruning

/-- What pruning leaves: the node and the buffer, no evidence that is expired,
and the counter is not too small. -/
structure Pruned (c : Verifier) (enc : Encoding) (pool pool' : Pool) : Prop where
  node : pool'.node = pool.node
  buffer : pool'.consensusBuffer = pool.consensusBuffer
  fresh : ∀ ev ∈ pool'.pending, ev ∈ pool.pending
    ∧ (ev.validateBasic c.toCrypto enc = true → ¬pool.node.Expired ev)
  length_le : pool'.pending.length ≤ pool.pending.length
  counted : pool.pending.length ≤ pool.evidenceSize.toNat →
    pool'.pending.length ≤ pool'.evidenceSize.toNat

/-- The evidence still to be looked at contains all that is expired, and is in
order. -/
lemma removeExpiredLoop_pruned (hsorted : Sorted enc evs)
    (hmem : ∀ ev ∈ evs, ev ∈ pool.pending)
    (haccepts : ∀ ev ∈ pool.pending, ev.validateBasic c.toCrypto enc = true →
      chain.Accepts c enc ev)
    (hexpired : ∀ ev ∈ pool.pending, ev.validateBasic c.toCrypto enc = true →
      pool.node.Expired ev → ev ∈ evs) :
    Pruned c enc pool (removeExpiredLoop c.toCrypto enc evs pool).1 := by
  induction evs generalizing pool with
  | nil =>
    refine ⟨rfl, rfl, fun ev hev => ⟨hev, fun hbasic hold => ?_⟩, le_rfl, id⟩
    exact nomatch hexpired ev hev hbasic hold
  | cons e evs ih =>
    obtain ⟨hhead, htail⟩ := List.pairwise_cons.mp hsorted
    obtain ⟨hemem, hevsmem⟩ := List.forall_mem_cons.mp hmem
    unfold removeExpiredLoop
    split
    next hinvalid =>
      -- what does not decode is passed over
      refine ih htail hevsmem haccepts fun ev hev hbasic hold => ?_
      rcases List.mem_cons.mp (hexpired ev hev hbasic hold) with rfl | h
      · rw [hbasic] at hinvalid
        cases hinvalid
      exact h
    next hvalid =>
    have hvalid : e.validateBasic c.toCrypto enc = true := by simpa using hvalid
    split
    next hfresh =>
      -- the first one that is not expired: nor is what comes after it
      have hfresh : ¬pool.node.Expired e := by
        unfold Node.Expired
        simpa using hfresh
      refine ⟨rfl, rfl, fun ev hev => ⟨hev, fun hbasic hold => hfresh ?_⟩, le_rfl, id⟩
      rcases List.mem_cons.mp (hexpired ev hev hbasic hold) with rfl | h
      · exact hold
      have hle : e.height ≤ ev.height := by
        rcases Key.before_iff.mp (hhead ev h) with hlt | ⟨heq, -⟩
        · exact le_of_lt hlt
        exact le_of_eq heq
      exact expired_mono (haccepts e hemem hvalid) (haccepts ev hev hbasic) hle hold
    next hold =>
    have hpending : pool.isPending enc e = true :=
      List.any_eq_true.mpr ⟨e, hemem, decide_eq_true rfl⟩
    obtain ⟨hnode, hbuffer, hall, hlength, hcount⟩ :=
      @ih (pool.removePendingEvidence enc e) htail (fun ev hev => mem_removePending.mpr
        ⟨hevsmem ev hev, (Key.ne_of_before (hhead ev hev)).symm⟩)
        (fun ev hev => haccepts ev (mem_removePending.mp hev).1) (fun ev hev hbasic hold => by
          obtain ⟨hev, hkey⟩ := mem_removePending.mp hev
          rcases List.mem_cons.mp (hexpired ev hev hbasic hold) with
            rfl | h
          · exact absurd rfl hkey
          exact h)
    refine ⟨hnode, hbuffer, fun ev hev => ?_, ?_, fun h => ?_⟩
    · obtain ⟨hev, hfresh⟩ := hall ev hev
      exact ⟨(mem_removePending.mp hev).1, hfresh⟩
    · exact hlength.trans (List.length_filter_le _ _)
    exact hcount (length_removePending_le hpending h)

/-- Pruning makes the evidence valid in the state of the node. -/
lemma removeExpired_pruned (hsane : pool.Sane enc)
    (haccepts : ∀ ev ∈ pool.pending, ev.validateBasic c.toCrypto enc = true →
      chain.Accepts c enc ev) :
    Pruned c enc pool (pool.removeExpiredPendingEvidence c.toCrypto enc) :=
  { removeExpiredLoop_pruned hsane.sorted (fun _ h => h) haccepts (fun _ hev _ _ => hev) with }

-- ==== every call

/-- Evidence that was valid can be verified by a later node, unless it is
expired there. -/
lemma Good.later (h : Good c enc chain pool)
    (hretains : Retains chain pool.node node) (hev : ev ∈ pool.pending)
    (hbasic : ev.validateBasic c.toCrypto enc = true)
    (hfresh : ¬node.Expired ev) : node.Has ev := by
  obtain ⟨haccepts, hhas, -⟩ := h.valid ev hev hbasic
  exact hhas.later hbasic haccepts hretains hfresh

lemma good_update (h : Good c enc chain pool) {evidence : List Evidence}
    (hlegal : (Call.update node evidence).Legal chain pool)
    (hcareful : (Call.update node evidence).Careful c enc chain pool)
    (hupdate : pool.update c.toCrypto enc node evidence = some pool') :
    Good c enc chain pool' := by
  obtain ⟨hon, hretains, hheader, hvals⟩ := hlegal
  obtain ⟨hnotice, hsize⟩ := hcareful
  obtain ⟨hnode, hbuffer, hheight, htime, hcounted⟩ :=
    @kept_updated enc pool node evidence h.counted hsize
  have hsane := (@changes_updated enc True pool node evidence).sane h.sane
  have hall : ∀ ev ∈ (pool.updated enc node evidence).pending,
      ev.validateBasic c.toCrypto enc = true → chain.Accepts c enc ev
        ∧ (¬node.Expired ev → node.Has ev) := by
    refine updated_forall (fun ev hev hbasic => ?_)
      (fun votes hvotes dve hdve hbasic => ?_) evidence
    · exact ⟨(h.valid ev hev hbasic).1, h.later hretains hev hbasic⟩
    obtain ⟨haccepts, hhas⟩ := bufferedEvidence_valid hon hheader hvals
      (h.buffer votes hvotes) hdve
    exact ⟨haccepts, fun _ => hhas⟩
  unfold update at hupdate
  split at hupdate
  · cases hupdate
  cases hupdate
  split
  next hprunes =>
    obtain ⟨hnode', hbuffer', hleft, -, hcount⟩ :=
      removeExpired_pruned hsane fun ev hev hbasic => (hall ev hev hbasic).1
    refine ⟨?_, (@changes_removeExpired _ _ True _ hsane).sane hsane, hcount hcounted, ?_, ?_⟩
    · rw [hnode', hnode]
      exact hon
    · intro ev hev hbasic
      obtain ⟨hev, hfresh⟩ := hleft ev hev
      obtain ⟨haccepts, hhas⟩ := hall ev hev hbasic
      have hfresh := hfresh hbasic
      rw [hnode'] at *
      rw [hnode] at *
      exact ⟨haccepts, hhas hfresh, hfresh⟩
    rw [hbuffer', hbuffer]
    exact fun _ h => nomatch h
  next hno =>
  refine ⟨?_, hsane, hcounted, ?_, ?_⟩
  · rw [hnode]
    exact hon
  · intro ev hev hbasic
    obtain ⟨haccepts, hhas⟩ := hall ev hev hbasic
    have hfresh : ¬node.Expired ev := by
      intro hold
      refine hno ?_
      have hne := List.length_pos_of_mem hev
      have hcounter : (pool.updated enc node evidence).evidenceSize ≠ 0 := by
        intro hzero
        rw [hzero, UInt32.toNat_zero] at hcounted
        omega
      obtain ⟨hpast, hpast'⟩ := hnotice ev hev hbasic hold
      unfold prunes
      rw [hheight, htime, hnode]
      simp only [Bool.and_eq_true, decide_eq_true_eq]
      exact ⟨⟨hcounter, hpast⟩, hpast'⟩
    rw [hnode]
    exact ⟨haccepts, hhas hfresh, hfresh⟩
  rw [hbuffer]
  exact fun _ h => nomatch h

section

variable (h : Good c enc chain pool)

include h

lemma good_restart (hlegal : (Call.restart node).Legal chain pool)
    (hnew : new c.toCrypto enc node pool.pending pool.committed = some pool') :
    Good c enc chain pool' := by
  obtain ⟨hon, hretains⟩ := hlegal
  have hnewSane := (sane_new h.sane hnew).1
  have hsane : Sane enc ⟨node, pool.pending, pool.committed, [], 0, [], 0, zeroTime⟩ :=
    ⟨h.sane.sorted, h.sane.disjoint, List.forall_mem_nil _⟩
  obtain ⟨hnode, hbuffer, hleft, hlength, -⟩ := removeExpired_pruned hsane
    fun ev hev hbasic => (h.valid ev hev hbasic).1
  unfold new at hnew
  dsimp only at hnew
  split at hnew
  · cases hnew
  next evList hlist =>
  cases hnew
  have hlisted := listEvidenceLoop_all hlist
  refine ⟨?_, ?_, ?_, fun ev hev hbasic => ?_, ?_⟩
  · dsimp only
    rw [hnode]
    exact hon
  · exact hnewSane
  · have hbound := h.counted
    have hword := pool.evidenceSize.toNat_lt
    dsimp only at hlength ⊢
    rw [hlisted, List.nil_append, UInt32.toNat_ofNat']
    rw [Nat.mod_eq_of_lt (by omega)]
  · dsimp only at hev ⊢
    obtain ⟨hev, hfresh⟩ := hleft ev hev
    have hfresh := hfresh hbasic
    rw [hnode]
    exact ⟨(h.valid ev hev hbasic).1, h.later hretains hev hbasic hfresh, hfresh⟩
  rw [hbuffer]
  exact fun _ h => nomatch h

lemma good_call {call : Call} (hlegal : call.Legal chain pool)
    (hcareful : call.Careful c enc chain pool)
    (hcall : pool.call c enc call = some pool') : Good c enc chain pool' := by
  cases call with
  | addEvidence ev =>
    rcases call_addEvidence hcall with hadd | rfl
    · exact good_addEvidence h hcareful hadd
    exact h
  | checkEvidence evList =>
    rw [call_checkEvidence hcall]
    exact good_checkLoop h hcareful
  | reportConflictingVotes voteA voteB =>
    cases hcall
    refine ⟨h.on, ⟨h.sane.sorted, h.sane.disjoint, h.sane.listed⟩, h.counted, h.valid,
      fun votes hvotes => ?_⟩
    rcases List.mem_append.mp hvotes with hvotes | hvotes
    · exact h.buffer votes hvotes
    rw [List.mem_singleton.mp hvotes]
    exact hcareful
  | update node evidence => exact good_update h hlegal hcareful hcall
  | store stores =>
    cases hcall
    obtain ⟨hon, hretains⟩ := hlegal
    refine ⟨hon, ⟨h.sane.sorted, h.sane.disjoint, h.sane.listed⟩, h.counted,
      fun ev hev hbasic => ?_, h.buffer⟩
    obtain ⟨haccepts, -, hfresh⟩ := h.valid ev hev hbasic
    exact ⟨haccepts, h.later hretains hev hbasic hfresh, hfresh⟩
  | restart node => exact good_restart h hlegal hcall

lemma good_run {calls : List Call}
    (hcareful : CarefulRun c enc chain calls pool)
    (hrun : pool.run c enc calls = some pool') : Good c enc chain pool' := by
  induction calls generalizing pool with
  | nil =>
    cases hrun
    exact h
  | cons call calls ih =>
    obtain ⟨⟨hlegal, hstep⟩, hrest⟩ := hcareful
    unfold run at hrun
    split at hrun
    · cases hrun
    next pool'' hcall => exact ih (good_call h hlegal hstep hcall) (hrest _ hcall) hrun

end

lemma good_empty (hon : node.On chain) : Good c enc chain (empty node) where
  on := hon
  sane := sane_empty node
  counted := le_rfl
  valid := fun _ h => nomatch h
  buffer := fun _ h => nomatch h

lemma mem_pendingEvidence {maxBytes : Int}
    (h : ev ∈ pool.pendingEvidence c.toCrypto enc size maxBytes) :
    ev ∈ pool.pending ∧ ev.validateBasic c.toCrypto enc = true := by
  have hloop : ∀ (evs listed result : List Evidence),
      listEvidenceLoop c.toCrypto enc size maxBytes evs listed = some result →
      ∀ ev ∈ result, ev ∈ listed ∨ (ev ∈ evs ∧ ev.validateBasic c.toCrypto enc = true) := by
    intro evs
    induction evs with
    | nil =>
      intro listed result hlist ev hev
      cases hlist
      exact .inl hev
    | cons e evs ih =>
      intro listed result hlist ev hev
      unfold listEvidenceLoop at hlist
      split at hlist
      · cases hlist
        exact .inl hev
      split at hlist
      · cases hlist
      next hvalid =>
      rcases ih _ _ hlist ev hev with hev | ⟨hev, hbasic⟩
      · rcases List.mem_append.mp hev with hev | hev
        · exact .inl hev
        rw [List.mem_singleton.mp hev]
        exact .inr ⟨List.mem_cons_self .., by simpa using hvalid⟩
      exact .inr ⟨List.mem_cons_of_mem _ hev, hbasic⟩
  unfold pendingEvidence at h
  split at h
  · cases h
  cases hlist : listEvidenceLoop c.toCrypto enc size maxBytes pool.pending [] with
  | none =>
    rw [hlist] at h
    cases h
  | some result =>
    rw [hlist] at h
    exact (hloop _ _ _ hlist ev h).resolve_left List.not_mem_nil

end

-- ==== the result

/-- In every run of careful calls, evidence that is proposed passes `verify`
in the state of the pool, and has not been committed. -/
theorem proposed_evidence_valid (c : Verifier) (enc : Encoding)
    (chain : Chain) {node : Node} (hon : node.On chain) {calls : List Call}
    (hcareful : CarefulRun c enc chain calls (empty node)) {pool : Pool}
    (hrun : (empty node).run c enc calls = some pool)
    (size : List Evidence → Int) (maxBytes : Int) :
    ∀ ev ∈ pool.pendingEvidence c.toCrypto enc size maxBytes,
    pool.node.verify c enc ev = .ok () ∧ pool.isCommitted enc ev = false := by
  intro ev hev
  have hgood := good_run (good_empty hon) hcareful hrun
  obtain ⟨hev, hbasic⟩ := mem_pendingEvidence hev
  obtain ⟨haccepts, hhas, hfresh⟩ := hgood.valid ev hev hbasic
  refine ⟨(hgood.on.verify_iff hhas).mpr ⟨hfresh, haccepts⟩, ?_⟩
  rw [Bool.eq_false_iff, ne_eq, isCommitted_iff]
  exact hgood.sane.disjoint ev hev

/-- The theorem at a run that adds the two votes and moves on by one block,
after which they are proposed. -/
theorem proposed_votes_valid :
    ((empty (sampleNode 2)).run sampleVerifier sampleEncoding [.addEvidence
      (.duplicateVote (sampleVotes 0)), .update (sampleNode 3) []]).any (fun
      pool => (pool.pendingEvidence sampleVerifier.toCrypto sampleEncoding
      (fun _ => 0) (-1)).length = 1) = true
      ∧ ∀ pool, (empty (sampleNode 2)).run sampleVerifier sampleEncoding
        [.addEvidence (.duplicateVote (sampleVotes 0)),
          .update (sampleNode 3) []] = some pool →
        ∀ ev ∈ pool.pendingEvidence sampleVerifier.toCrypto sampleEncoding
          (fun _ => 0) (-1), pool.node.verify sampleVerifier sampleEncoding ev
          = .ok () ∧ pool.isCommitted sampleEncoding ev = false := by
  refine ⟨by decide +kernel, fun pool hrun => proposed_evidence_valid
    sampleVerifier sampleEncoding sampleChain (sampleNode_on 2) ?_ hrun _ _⟩
  refine ⟨⟨trivial, fun _ _ _ => ⟨rfl, trivial, by decide⟩⟩, fun pool' hadd => ?_⟩
  have hcases : pool' = ((empty (sampleNode 2)).addPendingEvidence sampleEncoding
        (.duplicateVote (sampleVotes 0))).pushBack (.duplicateVote (sampleVotes 0))
      ∨ pool' = empty (sampleNode 2) := by
    refine (call_addEvidence hadd).imp_left fun hok => ?_
    unfold addEvidence at hok
    rw [if_neg (by decide), if_neg (by decide)] at hok
    split at hok
    · cases hok
    cases hok
    rfl
  have hlegal : ∀ pool, (Call.update (sampleNode 3) []).Legal sampleChain pool :=
    fun _ => ⟨sampleNode_on 3, fun _ _ => ⟨fun _ => rfl, fun _ => rfl,
      fun _ => rfl⟩, rfl, rfl⟩
  refine ⟨⟨hlegal pool', ?_⟩, fun _ _ => trivial⟩
  rcases hcases with rfl | rfl
  · refine ⟨fun ev hev _ hold => ?_, by decide⟩
    obtain rfl := List.mem_singleton.mp hev
    exact absurd hold (by decide)
  exact ⟨fun ev hev => absurd hev List.not_mem_nil, by decide⟩

/-- Votes of height 1 expire at height 12, but are still proposed then: the
pool remembers not to look for expired evidence before it is past height
12. -/
theorem expired_votes_proposed :
    ((empty (sampleNode 2)).run sampleVerifier sampleEncoding [.addEvidence
      (.duplicateVote (sampleVotes 0)), .update (sampleNode 3) [],
      .update (sampleNode 12) []]).any (fun pool =>
      decide ((pool.pendingEvidence sampleVerifier.toCrypto sampleEncoding
        (fun _ => 0) (-1)).map (pool.node.verify sampleVerifier
        sampleEncoding) = [.error .tooOld])) = true := by
  decide +kernel

end Pool

end HetuEngine.EvidencePool
