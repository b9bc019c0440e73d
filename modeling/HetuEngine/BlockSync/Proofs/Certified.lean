/-
What block sync stores with a block.

Consensus makes a vote set of the commit that was saved with the last block
when it starts. The routine verifies a block with the last commit of the next
one, and stops at two thirds of the power. Without vote extensions it saves
this commit, so the rest of its slots may hold anything; with extensions it
saves the extended commit that came with the block, of which it has only
looked at the height and at whether extensions are there. Where the extended
commits are genuine (`Genuine`), everything saved is certified; and where the
rest of the slots of the other commits are votes as well (`Voted`), consensus
can be started.
-/
import HetuEngine.Blocks.Proofs.Save
import HetuEngine.BlockSync.Reactor
import HetuEngine.Comet.Proofs.Commit

namespace HetuEngine.BlockSync

open Lib Lib.Weight Comet EvidencePool Blocks VoteSet ConsensusParams ExtendedCommit

variable {P : Type} [DecidableEq P]

-- ==== certified saves

namespace SavedCommit

def height : SavedCommit → Int
  | .seen commit => commit.height
  | .extended ec => ec.height

def blockID : SavedCommit → BlockID
  | .seen commit => commit.blockID
  | .extended ec => ec.blockID

def vote : SavedCommit → Nat → Except CommitPanic Vote
  | .seen commit => commit.getVote
  | .extended ec => ec.getExtendedVote

def isExtended : SavedCommit → Bool
  | .seen _ => false
  | .extended _ => true

end SavedCommit

/-- A commit with valid precommits for the block, and valid extensions, of
more than two thirds of the power. -/
structure SavedBlock.Certified (c : Crypto) (chainID : String) (s : SavedBlock) : Prop where
  blockID : s.commit.blockID = s.blockID
  height : s.commit.height = s.height
  votes : ∃ A : List Nat, A.Nodup
    ∧ s.validators.totalVotingPower * 2 / 3 < weigh s.validators.powerAt A
    ∧ ∀ i ∈ A, ∃ val w, s.validators.validators[i]? = some val
      ∧ s.commit.vote i = .ok w ∧ w.blockID = s.blockID
      ∧ c.signed chainID val.pubKey w = true
      ∧ (s.commit.isExtended = true → c.extensionSigned chainID val.pubKey w = true)

variable {vals : ValidatorSet}

lemma checkedPower_eq_weigh {entries : List Checked}
    (h : ∀ e ∈ entries, vals.validators[e.valIdx]? = some e.val) :
    checkedPower entries
      = weigh vals.powerAt (entries.map Checked.valIdx) := by
  unfold checkedPower weigh
  rw [Nat.cast_list_sum, List.map_map, List.map_map]
  refine congrArg List.sum (List.map_congr_left fun e he => ?_)
  exact (ValidatorSet.powerAt_eq (h e he)).symm

variable {height : Int} {commit : Commit} {c : Verifier} {id : BlockID}

/-- A commit that passed `VerifyCommitLight` certifies the block. -/
lemma certified_of_verifyCommitLight (hc : c.Lawful) {chainID : String}
    (h : verifyCommitLight c chainID vals id height commit = .ok ()) :
    SavedBlock.Certified c.toCrypto chainID
      ⟨vals, id, height, .seen commit⟩ := by
  obtain ⟨-, hheight, hid, entries, hcert⟩ := verifyCommitLightInternal_certified hc h
  refine ⟨hid, hheight, entries.map Checked.valIdx, hcert.distinct, ?_, ?_⟩
  · rw [← checkedPower_eq_weigh fun e he => (hcert.picked e he).val]
    exact hcert.enough
  intro i hi
  obtain ⟨e, he, rfl⟩ := List.mem_map.mp hi
  have hpicked := hcert.picked e he
  have hidx : e.valIdx = e.idx := hpicked.position
  have hflag : e.sig.blockIDFlag = .commit := by simpa [lightRule] using hpicked.kept
  obtain ⟨w, hw, -, -, hblock, hsig, hmsg⟩ := hpicked.vote (List.Subset.refl _) hflag
  refine ⟨e.val, w, hpicked.val, ?_, hblock.trans hid, ?_, nofun⟩
  · rw [hidx]
    exact hw
  unfold Crypto.signed
  rw [← hmsg, hsig]
  exact hcert.verified e he

-- ==== genuine commits

def slotOfExtended (ec : ExtendedCommit) (i : Nat) : Option Vote :=
  ec.extendedSignatures[i]?.bind fun ecs =>
    if ecs.blockIDFlag = .absent then none
    else (ec.getExtendedVote i).toOption

/-- An extended commit for a block: every slot that is not absent is a valid
vote with its extension, and those for the block have more than two thirds of
the power. -/
structure GenuineExtended (c : Crypto) (chainID : String)
    (vals : ValidatorSet) (id : BlockID) (ec : ExtendedCommit) : Prop where
  blockID : ec.blockID = id
  complete : id.isComplete = true
  slots : ∀ i ecs, ec.extendedSignatures[i]? = some ecs → ecs.blockIDFlag ≠ .absent
    → ∃ w, ec.getExtendedVote i = .ok w ∧ VoteSet.Fits c chainID ec.height ec.round vals true i w
  quorum : ∃ A : List Nat, A.Nodup ∧ vals.totalVotingPower * 2 / 3 < weigh vals.powerAt A
    ∧ ∀ i ∈ A, ∃ ecs, ec.extendedSignatures[i]? = some ecs ∧ ecs.blockIDFlag = .commit

section Extended

variable {c : Crypto} {chainID : String} {vals : ValidatorSet} {id : BlockID} {ec : ExtendedCommit}

section

variable (h : GenuineExtended c chainID vals id ec)

include h

lemma GenuineExtended.vote {i : Nat} {ecs : ExtendedCommitSig}
    (hecs : ec.extendedSignatures[i]? = some ecs)
    (hflag : ecs.blockIDFlag = .commit) :
    ∃ w, ec.getExtendedVote i = .ok w ∧ w.blockID = id
      ∧ VoteSet.Fits c chainID ec.height ec.round vals true i w := by
  obtain ⟨w, hw, hfits⟩ := h.slots i ecs hecs (by rw [hflag]; exact nofun)
  refine ⟨w, hw, ?_, hfits⟩
  unfold getExtendedVote at hw
  simp only [hecs, CommitSig.blockID, hflag] at hw
  cases hw
  exact h.blockID

lemma GenuineExtended.certified (hheight : ec.height = height) :
    SavedBlock.Certified c chainID ⟨vals, id, height, .extended ec⟩ := by
  obtain ⟨A, hnodup, hpower, hA⟩ := h.quorum
  refine ⟨h.blockID, hheight, A, hnodup, hpower, fun i hi => ?_⟩
  obtain ⟨ecs, hecs, hflag⟩ := hA i hi
  obtain ⟨w, hw, hid, hfits⟩ := h.vote hecs hflag
  obtain ⟨val, hval, -, hpass⟩ := hfits.signed
  have hzero : w.blockID.isZero = false := by
    rw [hid]
    cases hz : id.isZero with
    | false => rfl
    | true =>
      rw [BlockID.isZero_iff.mp hz] at h
      exact absurd h.complete (by decide)
  -- what `VerifyVoteAndExtension` has checked
  obtain ⟨u, hverify, hext⟩ := Fallible.bind_eq_ok.mp hpass
  refine ⟨val, w, hval, hw, hid, ?_, fun _ => ?_⟩
  · unfold Crypto.verify at hverify
    split at hverify
    · cases hverify
    split at hverify
    · cases hverify
    next hsigned => simpa using hsigned
  simp only [hfits.type, hzero, ne_eq, not_true_eq_false, decide_false,
    Bool.or_self, Bool.false_eq_true, if_false] at hext
  split at hext
  · cases hext
  split at hext
  · cases hext
  next hsigned => simpa using hsigned

/-- The loop of `ToExtendedVoteSet` adds the votes of all slots. -/
lemma addSigsToExtendedVoteSet_ok {vs : VoteSet}
    (hfilled : VoteSet.Filled c chainID ec.height ec.round vals true
      (slotOfExtended ec) 0 vs) :
    ∃ vs', ec.addSigsToVoteSet c ec.extendedSignatures.zipIdx vs = .ok vs'
      ∧ VoteSet.Filled c chainID ec.height ec.round vals true
        (slotOfExtended ec) ec.extendedSignatures.length vs' := by
  refine zipIdx_loop (fun _ => rfl) (fun sig i rest vs hsig hfilled => ?_) hfilled
  by_cases habsent : sig.blockIDFlag = .absent
  · have hslot : slotOfExtended ec i = none := by
      unfold slotOfExtended
      rw [hsig, Option.bind_some, if_pos habsent]
    refine ⟨vs, ?_, hfilled.skip hslot⟩
    rw [addSigsToVoteSet, if_pos habsent]
  obtain ⟨w, hw, hfits⟩ := h.slots _ sig hsig habsent
  have hslot : slotOfExtended ec i = some w := by
    unfold slotOfExtended
    rw [hsig, Option.bind_some, if_neg habsent, hw]
    rfl
  obtain ⟨vs₁, hadd, hnext⟩ := hfilled.add hslot hfits
  refine ⟨vs₁, ?_, hnext⟩
  rw [addSigsToVoteSet, if_neg habsent]
  simp [hw, hfits.basic, hadd]

/-- A vote set with a majority is made of a genuine extended commit. -/
lemma GenuineExtended.toExtendedVoteSet :
    ∃ vs, ec.toExtendedVoteSet c chainID vals = .ok vs
      ∧ vs.maj23 = some id := by
  obtain ⟨vs, hvs, hfilled⟩ := addSigsToExtendedVoteSet_ok h filled_new
  refine ⟨vs, hvs, ?_⟩
  have hsized : id.sized := by
    refine BlockID.sized_of_wellFormed ?_
    simp [BlockID.wellFormed, h.complete]
  obtain ⟨A, hnodup, hpower, hA⟩ := h.quorum
  refine hfilled.majority hsized hnodup (by omega) fun i hi => ?_
  obtain ⟨ecs, hecs, hflag⟩ := hA i hi
  obtain ⟨w, hw, hid, -⟩ := h.vote hecs hflag
  refine ⟨(List.getElem?_eq_some_iff.mp hecs).1, w, ?_, hid⟩
  unfold slotOfExtended
  rw [hecs, Option.bind_some, if_neg (by simp [hflag]), hw]
  rfl

end

end Extended

-- ==== starting consensus

/-- A vote set with a majority is made of a certified commit whose slots are
all genuine. -/
lemma toVoteSet_of_rebuildable (hc : c.Lawful) {chainID : String}
    (h : verifyCommitLight c chainID vals id height commit = .ok ())
    (hgenuine : VoteSet.Rebuildable c.toCrypto chainID vals commit) :
    ∃ vs, commit.toVoteSet c.toCrypto chainID vals = .ok vs
      ∧ vs.maj23 = some id := by
  obtain ⟨vs, hvs, hfilled⟩ := addSigsToVoteSet_ok hgenuine filled_new
  refine ⟨vs, hvs, ?_⟩
  obtain ⟨-, -, hid, entries, hcert⟩ := verifyCommitLightInternal_certified hc h
  -- the vote of a slot that was checked
  have hvote : ∀ e ∈ entries, e.valIdx < commit.signatures.length
      ∧ ∃ w, commit.slot e.valIdx = some w ∧ w.blockID = id ∧ w.validateBasic = true := by
    intro e he
    have hpicked := hcert.picked e he
    have hidx : e.valIdx = e.idx := hpicked.position
    have hsig : commit.signatures[e.valIdx]? = some e.sig := by
      rw [hidx]
      exact List.mem_zipIdx_iff_getElem?.mp hpicked.slot
    have hflag : e.sig.blockIDFlag = .commit := by simpa [lightRule] using hpicked.kept
    have hflag' : e.sig.blockIDFlag ≠ .absent := by
      rw [hflag]
      exact nofun
    obtain ⟨w, val, hw, hbasic, -⟩ := hgenuine e.valIdx e.sig hsig hflag'
    refine ⟨(List.getElem?_eq_some_iff.mp hsig).1, w, slot_present hsig hflag' hw, ?_, hbasic⟩
    unfold Commit.getVote at hw
    simp only [hsig, CommitSig.blockID, hflag] at hw
    cases hw
    exact hid
  have hsized : id.sized := by
    cases entries with
    | nil =>
      have hpos := vals.totalVotingPower_nonneg
      have henough : vals.totalVotingPower * 2 / 3 < 0 := hcert.enough
      omega
    | cons e entries =>
      obtain ⟨-, w, -, hblock, hbasic⟩ := hvote e (List.mem_cons_self ..)
      rw [← hblock]
      exact Vote.sized_of_validateBasic hbasic
  refine hfilled.majority hsized hcert.distinct ?_ fun i hi => ?_
  · rw [← checkedPower_eq_weigh fun e he => (hcert.picked e he).val]
    exact hcert.enough
  obtain ⟨e, he, rfl⟩ := List.mem_map.mp hi
  obtain ⟨hlt, w, hslot, hblock, -⟩ := hvote e he
  exact ⟨hlt, w, hslot, hblock⟩

/-- Extensions that are enabled from a later height on, or never. -/
lemma voteExtensionsEnabled_off {abci : ABCIParams} {k : Int} (hk : k ≤ height)
    (h : abci.voteExtensionsEnableHeight = 0 ∨ height < abci.voteExtensionsEnableHeight) :
    abci.voteExtensionsEnabled k = if k < 1 then .error (.extensionsHeight k) else .ok false := by
  unfold ABCIParams.voteExtensionsEnabled
  split
  · rfl
  split
  · rfl
  next hne =>
  have hlt := h.resolve_left hne
  rw [decide_eq_false (by omega)]

/-- Changes of the parameters do not touch whether extensions are enabled for
the block that brings them and for those before it. -/
lemma voteExtensionsEnabled_nextParams {params params' : ConsensusParams}
    {updates : Option ParamUpdates}
    (hvalid : 0 ≤ params.abci.voteExtensionsEnableHeight)
    (h : nextParams params height updates = .ok params') :
    0 ≤ params'.abci.voteExtensionsEnableHeight
      ∧ ∀ k ≤ height, params'.abci.voteExtensionsEnabled k
        = params.abci.voteExtensionsEnabled k := by
  cases updates with
  | none =>
    cases h
    exact ⟨hvalid, fun _ _ => rfl⟩
  | some updates =>
    unfold nextParams at h
    dsimp only at h
    split at h
    · cases h
    split at h
    · cases h
    next hbasic hupdate =>
    cases h
    unfold validateBasic at hbasic
    simp only [Bool.not_eq_true, Bool.not_eq_false', Bool.and_eq_true, decide_eq_true_eq] at hbasic
    refine ⟨hbasic.1.1.2, fun k hk => ?_⟩
    cases habci : updates.abci with
    | none => simp only [update, habci, Option.getD_none]
    | some abci =>
      have hrows : params.abci.voteExtensionsEnableHeight = abci.voteExtensionsEnableHeight
          ∨ (params.abci.voteExtensionsEnableHeight = 0
              ∨ height < params.abci.voteExtensionsEnableHeight)
            ∧ (abci.voteExtensionsEnableHeight = 0 ∨ height < abci.voteExtensionsEnableHeight) := by
        unfold validateUpdate at hupdate
        simp only [habci] at hupdate
        split_ifs at hupdate <;> simp at hupdate <;> omega
      simp only [update, habci, Option.getD_some]
      rcases hrows with heq | ⟨hold, hnext⟩
      · unfold ABCIParams.voteExtensionsEnabled
        rw [heq]
      rw [voteExtensionsEnabled_off hk hold, voteExtensionsEnabled_off hk hnext]

/-- What applying a block leaves for the start of consensus. -/
lemma applyVerifiedBlock_ok {enc : StateEncoding}
    {state state' : Blocks.State} {block : Blocks.Block}
    {resp : FinalizeResponse}
    (hvalid : 0 ≤ state.consensusParams.abci.voteExtensionsEnableHeight)
    (h : applyVerifiedBlock c enc state id block resp = .ok state') :
    state'.chainID = state.chainID ∧ state'.lastBlockHeight = block.height
      ∧ state'.lastValidators = state.validators
      ∧ 0 ≤ state'.consensusParams.abci.voteExtensionsEnableHeight
      ∧ state'.consensusParams.abci.voteExtensionsEnabled block.height
        = state.consensusParams.abci.voteExtensionsEnabled block.height := by
  unfold applyVerifiedBlock at h
  split at h
  · cases h
  split at h
  · cases h
  unfold updateState at h
  split at h
  · cases h
  split at h
  · cases h
  split at h
  · cases h
  next params hparams =>
  cases h
  have hnext := voteExtensionsEnabled_nextParams hvalid hparams
  exact ⟨rfl, rfl, rfl, hnext.1, hnext.2 _ le_rfl⟩

-- ==== runs

namespace Reactor

/-- What is asked of the pair of blocks that an event processes, if it is
accepted: by whether extensions are enabled, the id of the first block, its
extended commit and the last commit of the second one. -/
def AtAccepted (c : Verifier) (enc : StateEncoding) (r : Reactor P)
    (q : Bool → BlockID → Option ExtendedCommit → Commit → Prop) :
    Event P → Prop
  | .process evidenceOk _ _ => ∀ first second extCommit parts enabled,
      r.pool.peekTwoBlocks = (some first, some second, extCommit) →
      first.makePartSet enc.toBlockEncoding = some parts →
      r.state.consensusParams.abci.voteExtensionsEnabled first.height
        = .ok enabled →
      accepts c enc r.state first second (idOf enc.toBlockEncoding first parts)
        extCommit evidenceOk enabled = true →
      q enabled (idOf enc.toBlockEncoding first parts) extCommit
        second.lastCommit
  | _ => True

/-- The extended commit that comes with the first block is genuine. -/
def Genuine (c : Verifier) (enc : StateEncoding) (r : Reactor P) :
    Event P → Prop :=
  r.AtAccepted c enc fun enabled id extCommit _ => enabled = true →
    ∀ ec, extCommit = some ec →
      GenuineExtended c.toCrypto r.state.chainID r.state.validators id ec

/-- Without extensions, the last commit of the second block has votes in all
its slots. -/
def Voted (c : Verifier) (enc : StateEncoding) (r : Reactor P) :
    Event P → Prop :=
  r.AtAccepted c enc fun enabled _ _ lastCommit => enabled = false →
    VoteSet.Rebuildable c.toCrypto r.state.chainID r.state.validators lastCommit

/-- Consensus can start with the stored commit, which is the one that was
saved with the last block. -/
structure Restarts (c : Verifier) (state : Blocks.State) (store : BlockStore) :
    Prop where
  seen : 0 < state.lastBlockHeight → (store.loadSeenCommit state.lastBlockHeight).isSome
  votes : 0 < state.lastBlockHeight → ∃ vs, reconstructLastCommit c.toCrypto store state = .ok vs

/-- What holds all along a run with genuine commits. If all other commits are
votes, consensus can start. -/
structure Sound (c : Verifier) (chainID : String) (voted : Prop)
    (r : Reactor P) : Prop where
  chain : r.state.chainID = chainID
  params : 0 ≤ r.state.consensusParams.abci.voteExtensionsEnableHeight
  saves : ∀ s ∈ r.saves, s.Certified c.toCrypto chainID
  restarts : voted → Restarts c r.state r.store

variable {store store' : BlockStore} {extCommit : Option ExtendedCommit}
  {first second : Blocks.Block} {resp : FinalizeResponse}

variable {state : Blocks.State} {parts : PartSet} {evidenceOk : Bool}

/-- Commits of the last height that are left alone serve as before. -/
lemma Restarts.congr (h : Restarts c state store)
    (hseen : 0 < state.lastBlockHeight →
      store'.loadSeenCommit state.lastBlockHeight
        = store.loadSeenCommit state.lastBlockHeight)
    (hext : 0 < state.lastBlockHeight →
      store'.loadBlockExtendedCommit state.lastBlockHeight
        = store.loadBlockExtendedCommit state.lastBlockHeight) :
    Restarts c state store' := by
  refine ⟨fun hpos => ?_, fun hpos => ?_⟩
  · rw [hseen hpos]
    exact h.seen hpos
  obtain ⟨vs, hvs⟩ := h.votes hpos
  refine ⟨vs, ?_⟩
  obtain ⟨commit, hcommit⟩ := Option.isSome_iff_exists.mp (h.seen hpos)
  unfold reconstructLastCommit votesFromSeenCommit votesFromExtendedCommit at hvs ⊢
  rw [hseen hpos, hext hpos]
  -- with a seen commit the one of the next block is not looked at
  rw [hcommit] at hvs ⊢
  exact hvs

lemma saveFirst_ok (hc : c.Lawful) {enc : StateEncoding} {voted : Prop}
    {commit : SavedCommit} {extensionsEnabled : Bool}
    (hext : extCommit.isSome = extensionsEnabled)
    (hverify : verifyCommitLight c state.chainID state.validators
      (idOf enc.toBlockEncoding first parts) first.height second.lastCommit
      = .ok ())
    (hgenuine : extensionsEnabled = true → ∀ ec, extCommit = some ec →
      GenuineExtended c.toCrypto state.chainID state.validators
        (idOf enc.toBlockEncoding first parts) ec)
    (hvoted : voted → extensionsEnabled = false → VoteSet.Rebuildable
      c.toCrypto state.chainID state.validators second.lastCommit)
    (h : saveFirst enc store first second parts extCommit
      = .ok (store', commit)) :
    SavedBlock.Certified c.toCrypto state.chainID ⟨state.validators,
      idOf enc.toBlockEncoding first parts, first.height, commit⟩
    ∧ (∀ h, h ≠ first.height → store'.loadSeenCommit h = store.loadSeenCommit h
        ∧ store'.loadBlockExtendedCommit h = store.loadBlockExtendedCommit h)
    ∧ ∀ state' : Blocks.State, state'.chainID = state.chainID →
      state'.lastBlockHeight = first.height →
      state'.lastValidators = state.validators →
      state'.consensusParams.abci.voteExtensionsEnabled first.height
        = .ok extensionsEnabled →
      voted → Restarts c state' store' := by
  cases extCommit with
  | none =>
    obtain rfl : extensionsEnabled = false := hext.symm
    unfold saveFirst at h
    dsimp only at h
    split at h
    · cases h
    next writes store₁ hsave =>
    cases h
    obtain ⟨hheight, hseen, hothers⟩ := saveBlock_commits hsave
    refine ⟨certified_of_verifyCommitLight hc hverify, hothers, ?_⟩
    intro state' hchain hlast hvals hparams hall
    obtain ⟨vs, hvs, hmaj⟩ :=
      toVoteSet_of_rebuildable hc hverify (hvoted hall rfl)
    refine ⟨fun _ => ?_, fun _ => ⟨vs, ?_⟩⟩
    · rw [hlast, hseen]
      rfl
    unfold reconstructLastCommit votesFromSeenCommit
    rw [hlast, hparams, hseen]
    change (if second.lastCommit.height ≠ first.height then _ else _) = _
    rw [if_neg (not_not.mpr hheight), hchain, hvals, hvs]
    simp only [hmaj]
    rfl
  | some ec =>
    obtain rfl : extensionsEnabled = true := hext.symm
    unfold saveFirst at h
    dsimp only at h
    split at h
    · cases h
    next writes store₁ hsave =>
    cases h
    obtain ⟨hheight, hload, hseen, hothers⟩ := saveBlockWithExtendedCommit_commits hsave
    have hec := hgenuine rfl ec rfl
    refine ⟨hec.certified hheight, hothers, ?_⟩
    intro state' hchain hlast hvals hparams _
    obtain ⟨vs, hvs, hmaj⟩ := hec.toExtendedVoteSet
    refine ⟨fun _ => ?_, fun _ => ⟨vs, ?_⟩⟩
    · rw [hlast, hseen]
      rfl
    unfold reconstructLastCommit votesFromExtendedCommit
    rw [hlast, hparams, hload]
    simp only
    rw [if_neg (not_not.mpr hheight), hchain, hvals, hvs]
    simp only [hmaj]
    rfl

variable {c : Verifier} {enc : StateEncoding} {chainID : String} {r : Reactor P}
  {voted : Prop}

lemma Sound.processParts (hc : c.Lawful) (h : r.Sound c chainID voted)
    {now : Time} (hnext : 0 < r.state.lastBlockHeight →
      r.state.lastBlockHeight + 1 = first.height)
    (hgenuine : ∀ enabled,
      r.state.consensusParams.abci.voteExtensionsEnabled first.height
        = .ok enabled →
      accepts c enc r.state first second (idOf enc.toBlockEncoding first parts)
        extCommit evidenceOk enabled = true →
      (enabled = true → ∀ ec, extCommit = some ec →
        GenuineExtended c.toCrypto r.state.chainID r.state.validators
          (idOf enc.toBlockEncoding first parts) ec)
      ∧ (voted → enabled = false → VoteSet.Rebuildable c.toCrypto
        r.state.chainID r.state.validators second.lastCommit)) :
    (r.processParts c enc first second parts extCommit evidenceOk resp
      now).Sound c chainID voted := by
  unfold Reactor.processParts
  dsimp only
  split
  · exact { h with }
  next enabled henabled =>
  split
  · exact { h with }
  next haccepts =>
  rw [Bool.not_eq_true, Bool.not_eq_false'] at haccepts
  obtain ⟨hextended, hvoted⟩ := hgenuine enabled henabled haccepts
  unfold accepts at haccepts
  simp only [Bool.and_eq_true, decide_eq_true_eq] at haccepts
  obtain ⟨⟨⟨⟨hverify, -⟩, -⟩, hext⟩, -⟩ := haccepts
  have hverify' : verifyCommitLight c r.state.chainID r.state.validators
      (idOf enc.toBlockEncoding first parts) first.height second.lastCommit = .ok () := by
    cases hv : verifyCommitLight c r.state.chainID r.state.validators
        (idOf enc.toBlockEncoding first parts) first.height second.lastCommit with
    | ok u => rfl
    | error e =>
      rw [hv] at hverify
      cases hverify
  split
  · exact { h with }
  next store commit hsave =>
  obtain ⟨hcert, hothers, hrestart⟩ :=
    saveFirst_ok hc hext hverify' hextended hvoted hsave
  have hsaves : ∀ s ∈ r.saves ++ [⟨r.state.validators,
      idOf enc.toBlockEncoding first parts, first.height, commit⟩],
      s.Certified c.toCrypto chainID := by
    intro s hs
    rcases List.mem_append.mp hs with hs | hs
    · exact h.saves s hs
    rw [List.mem_singleton.mp hs, ← h.chain]
    exact hcert
  split
  · -- the block was saved, but not applied
    refine ⟨h.chain, h.params, hsaves, fun hall => (h.restarts hall).congr ?_ ?_⟩
    · intro hpos
      exact (hothers _ (by have := hnext hpos; omega)).1
    intro hpos
    exact (hothers _ (by have := hnext hpos; omega)).2
  next state happly =>
  obtain ⟨hchain, hlast, hvals, hparams, hsame⟩ := applyVerifiedBlock_ok h.params happly
  exact ⟨hchain.trans h.chain, hparams, hsaves,
    hrestart state hchain hlast hvals (hsame.trans henabled)⟩

lemma Sound.process (hc : c.Lawful) (h : r.Sound c chainID voted)
    {now : Time} (hgenuine : r.Genuine c enc (.process evidenceOk resp now))
    (hvoted : voted → r.Voted c enc (.process evidenceOk resp now)) :
    (r.process c enc evidenceOk resp now).Sound c chainID voted := by
  unfold Reactor.process
  split
  next first second extCommit hpeek =>
    split
    · exact { h with }
    next hheight =>
    split
    · exact { h with }
    split
    · exact { h with }
    next parts hparts =>
    refine h.processParts hc (fun hpos => ?_) fun enabled henabled haccepts =>
      ⟨hgenuine first second extCommit parts enabled hpeek hparts henabled
        haccepts, fun hall => hvoted hall first second extCommit parts enabled
        hpeek hparts henabled haccepts⟩
    by_contra hne
    exact hheight ⟨hpos, hne⟩
  · exact h

lemma Sound.step (hc : c.Lawful) (h : r.Sound c chainID voted)
    {event : Event P} (hgenuine : r.Genuine c enc event)
    (hvoted : voted → r.Voted c enc event) :
    (r.step c enc event).Sound c chainID voted := by
  unfold Reactor.step
  split
  · exact h
  cases event with
  | process evidenceOk resp now => exact h.process hc hgenuine hvoted
  | addBlock peerID block extCommit =>
    dsimp only
    split
    · exact h
    exact { h with }
  | setPeerRange | removePeer | makeNextRequester | pickPeers
  | reset => exact { h with }

lemma run_concat (c : Verifier) (enc : StateEncoding) (r : Reactor P)
    (events : List (Event P)) (event : Event P) :
    r.run c enc (events ++ [event])
      = (r.run c enc events).step c enc event := by
  unfold Reactor.run
  rw [List.foldl_append]
  rfl

-- ---- a chain to sync

def syncValidator : Validator := ⟨List.replicate 20 1, List.replicate 20 1, 10, 0⟩

def syncValidators : ValidatorSet where
  validators := [syncValidator]
  proposer := some syncValidator
  power_pos := by decide
  addresses_nodup := by decide
  total_le := by decide

def syncEncoding : StateEncoding where
  sum := fun _ => List.replicate 32 0
  header := fun _ => List.replicate 32 0
  validators := fun _ => List.replicate 32 0
  duplicateVote := fun _ => []
  commitSig := fun _ => []
  evidence := fun _ => []
  marshal := fun _ => [0]
  unmarshal := fun _ => none
  hashedParams := fun _ => []
  evidenceSize := fun _ => 0
  txSize := fun _ => 0

/-- The state at genesis, with vote extensions from a height on. -/
def syncState (enableHeight : Int) : Blocks.State where
  version := ⟨blockProtocol, 0⟩
  chainID := "hetu"
  initialHeight := 1
  lastBlockHeight := 0
  lastBlockID := .zero
  lastBlockTime := 0
  nextValidators := syncValidators
  validators := syncValidators
  lastValidators := .empty
  consensusParams := ⟨⟨1000, -1⟩, ⟨1, 1⟩, 100, [.ed25519], 0, ⟨enableHeight⟩⟩
  lastResultsHash := []
  appHash := []

def syncFirst (enableHeight : Int) : Blocks.Block :=
  (syncState enableHeight).makeBlock syncEncoding 1 [] ⟨0, 0, .zero, []⟩ [] (List.replicate 20 1)

def syncID : BlockID := ⟨List.replicate 32 0, ⟨1, List.replicate 32 0⟩⟩

def syncSig (signature : Bytes) : CommitSig := ⟨.commit, List.replicate 20 1, 0, signature⟩

/-- The second block, with a good commit for the first one. -/
def syncSecond (enableHeight : Int) : Blocks.Block :=
  { syncFirst enableHeight with
    header := { (syncFirst enableHeight).header with height := 2 }
    lastCommit := ⟨1, 0, syncID, [syncSig (List.replicate 20 1)]⟩ }

/-- A peer that has three blocks sends the first two. -/
def syncReceived (enableHeight : Int) (extCommit : Option ExtendedCommit) :
    List (Event Nat) :=
  [.setPeerRange 7 1 3 0, .makeNextRequester 1, .makeNextRequester 2,
    .pickPeers 1 (some 7) none, .pickPeers 2 (some 7) none,
    .addBlock 7 (syncFirst enableHeight) extCommit,
    .addBlock 7 (syncSecond enableHeight) none]

def syncProcess : Event Nat := .process true ⟨[], [], none, []⟩ 0

def syncEvents (enableHeight : Int) (extCommit : Option ExtendedCommit) :
    List (Event Nat) :=
  syncReceived enableHeight extCommit ++ [syncProcess]

def syncStart (enableHeight : Int) : Reactor Nat :=
  start (BlockPool.new 1 0) (syncState enableHeight) (newBlockStore Database.empty)

/-- Whatever peers send, as long as the extended commits of the blocks that
are accepted with extensions are genuine: every block is saved with a commit
that certifies it. If also the last commits that are used without extensions
have votes in all slots, consensus can be started at any time. -/
theorem saved_commits_certified (c : Verifier) (hc : c.Lawful)
    (enc : StateEncoding) (pool : BlockPool P Blocks.Block ExtendedCommit)
    (state : Blocks.State) (store : BlockStore)
    (hparams : state.consensusParams.validateBasic = true)
    (hstart : Restarts c state store) (events : List (Event P))
    (hgenuine : Along (fun before event =>
      ((start pool state store).run c enc before).Genuine c enc event)
      [] events) :
    ∀ before, before.IsPrefix events →
      (∀ s ∈ ((start pool state store).run c enc before).saves,
        s.Certified c.toCrypto state.chainID)
      ∧ (Along (fun before event =>
          ((start pool state store).run c enc before).Voted c enc event)
          [] events →
        0 < ((start pool state store).run c enc before).state.lastBlockHeight →
        ∃ vs, reconstructLastCommit c.toCrypto
          ((start pool state store).run c enc before).store
          ((start pool state store).run c enc before).state = .ok vs) := by
  intro before hbefore
  suffices hsound : ((start pool state store).run c enc before).Sound c
      state.chainID (Along (fun before event =>
        ((start pool state store).run c enc before).Voted c enc event)
        [] events) from
    ⟨hsound.saves, fun hvoted => (hsound.restarts hvoted).votes⟩
  induction before using List.reverseRecOn with
  | nil =>
    refine ⟨rfl, ?_, nofun, fun _ => hstart⟩
    unfold validateBasic at hparams
    simp only [Bool.and_eq_true, decide_eq_true_eq] at hparams
    exact hparams.1.1.2
  | append_singleton before event ih =>
    obtain ⟨rest, rfl⟩ := hbefore
    rw [run_concat]
    rw [List.append_assoc] at hgenuine ih ⊢
    exact (ih (List.prefix_append _ _)).step hc hgenuine.of_append
      fun hvoted => hvoted.of_append

/-- A genuine extended commit for the first block. -/
def goodExtCommit : ExtendedCommit :=
  ⟨1, 0, syncID, [⟨syncSig (List.replicate 20 1), [5], List.replicate 20 1⟩]⟩

lemma goodExtCommit_genuine : GenuineExtended
    Comet.sampleVerifier.toCrypto "hetu"
    syncValidators syncID goodExtCommit where
  blockID := rfl
  complete := by decide
  slots i ecs hecs _ := by
    match i, hecs with
    | 0, hecs =>
      cases hecs
      refine ⟨_, rfl, rfl, rfl, rfl, rfl, by decide +kernel, syncValidator, rfl,
        rfl, ?_⟩
      unfold Passes
      decide +kernel
    | _ + 1, hecs => exact absurd hecs (by simp [goodExtCommit])
  quorum := by
    refine ⟨[0], by decide, by decide, fun i hi => ?_⟩
    rw [List.mem_singleton.mp hi]
    exact ⟨_, rfl, rfl⟩

lemma sync_pair {height : Int} {first second : Blocks.Block}
    {ext ext' : Option ExtendedCommit}
    (h : (some (syncFirst height), some (syncSecond height), ext)
      = (some first, some second, ext')) :
    first = syncFirst height ∧ second = syncSecond height ∧ ext' = ext := by
  cases h
  exact ⟨rfl, rfl, rfl⟩

lemma sync_id {parts : PartSet}
    (h : (syncFirst 1).makePartSet syncEncoding.toBlockEncoding = some parts) :
    idOf syncEncoding.toBlockEncoding (syncFirst 1) parts = syncID := by
  have hheader : ((syncFirst 1).makePartSet syncEncoding.toBlockEncoding).map
      PartSet.header = some syncID.partSetHeader := by decide +kernel
  rw [h] at hheader
  exact congrArg (BlockID.mk _) (Option.some.inj hheader)

/-- The first block is saved with a good commit, and consensus can be
started. -/
abbrev SyncsWell (height : Int) (ext : Option ExtendedCommit) : Prop :=
  let r := (syncStart height).run Comet.sampleVerifier syncEncoding
    (syncEvents height ext)
  r.saves.length = 1
    ∧ (∀ s ∈ r.saves, s.Certified Comet.sampleVerifier.toCrypto "hetu")
    ∧ ∃ vs, reconstructLastCommit Comet.sampleVerifier.toCrypto
      r.store r.state = .ok vs

/-- Without extensions and with them. -/
theorem synced_commit_certified :
    SyncsWell 0 none ∧ SyncsWell 1 (some goodExtCommit) := by
  have hrun : ∀ height ext,
      (syncState height).consensusParams.validateBasic = true →
      ((syncStart height).run Comet.sampleVerifier syncEncoding
        (syncReceived height ext)).Genuine Comet.sampleVerifier syncEncoding
          syncProcess →
      ((syncStart height).run Comet.sampleVerifier syncEncoding
        (syncReceived height ext)).Voted Comet.sampleVerifier syncEncoding
          syncProcess → _ := fun height ext hparams hgenuine hvoted =>
    (saved_commits_certified Comet.sampleVerifier Comet.sampleVerifier_lawful
      syncEncoding (BlockPool.new 1 0) (syncState height) _ hparams
      ⟨fun h => absurd h (Int.lt_irrefl 0), fun h => absurd h (Int.lt_irrefl 0)⟩
      (syncEvents height ext) (along_concat.mpr ⟨⟨trivial, trivial, trivial,
        trivial, trivial, trivial, trivial, trivial⟩, hgenuine⟩) _
      List.prefix_rfl).imp_right fun h => h (along_concat.mpr ⟨⟨trivial, trivial,
        trivial, trivial, trivial, trivial, trivial, trivial⟩, hvoted⟩)
  constructor
  · obtain ⟨hsaves, hvotes⟩ := hrun 0 none (by decide)
      (fun first _ _ _ enabled hpair _ henabled _ htrue => by
        have hok : Except.ok false = Except.ok enabled :=
          (sync_pair hpair).1 ▸ henabled
        cases hok
        cases htrue)
      (fun _ second _ _ _ hpair _ _ _ _ i sig hsig _ => by
        rw [(sync_pair hpair).2.1] at hsig ⊢
        match i, hsig with
        | 0, hsig =>
          exact ⟨⟨.precommit, 1, 0, syncID, 0, List.replicate 20 1, 0,
            List.replicate 20 1, [], []⟩, syncValidator, by decide +kernel⟩
        | _ + 1, hsig => exact absurd hsig (by simp [syncSecond]))
    exact ⟨by decide +kernel, hsaves, hvotes (by decide +kernel)⟩
  obtain ⟨hsaves, hvotes⟩ := hrun 1 (some goodExtCommit) (by decide)
    (fun first _ _ parts _ hpair hparts _ _ _ ec hec => by
      obtain ⟨rfl, -, rfl⟩ := sync_pair hpair
      cases hec
      rw [sync_id hparts]
      exact goodExtCommit_genuine)
    (fun first _ _ _ enabled hpair _ henabled _ hfalse => by
      have hok : Except.ok true = Except.ok enabled :=
        (sync_pair hpair).1 ▸ henabled
      cases hok
      cases hfalse)
  exact ⟨by decide +kernel, hsaves, hvotes (by decide +kernel)⟩

/-- An extended commit of the right height, for another block and with
signatures that are none. -/
def forgedExtCommit : ExtendedCommit :=
  ⟨1, 0, ⟨List.replicate 32 9, ⟨1, List.replicate 32 9⟩⟩, [⟨syncSig [7], [], [7]⟩]⟩

/-- A peer sends the two blocks with this extended commit for the first one:
the block is saved with it, and consensus cannot be started. -/
theorem forged_commit_saved :
    let r := (syncStart 1).run Comet.sampleVerifier syncEncoding
      (syncEvents 1 (some forgedExtCommit))
    r.state.lastBlockHeight = 1 ∧ r.halted = false
      ∧ r.store.loadBlockExtendedCommit 1 = some forgedExtCommit
      ∧ (match reconstructLastCommit Comet.sampleVerifier.toCrypto r.store r.state with
          | Except.error e => some e
          | Except.ok _ => none)
        = some (.panic (.notReconstructed (some .invalidSignature))) := by
  decide +kernel

end Reactor

end HetuEngine.BlockSync
