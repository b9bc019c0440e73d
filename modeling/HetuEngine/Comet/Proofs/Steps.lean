/-
Height, round and step never go back, and what happens to the commit step.

The order holds of every run. That the commit step is left for the next
height only does not: `enterNewRound` does not look at the step, and `addVote`
calls it on +2/3 votes of any later round. A node that waits in the commit
step for its block is then thrown into that round and drops the part set it
was filling (`commit_left`).

`State.quiet` is what has to hold of a vote that arrives in the commit step:
it does not reach +2/3 votes of a later round, and +2/3 prevotes of the
current round for a block are for the part set that the node has. It is read
off the votes before the step (`VoteSet.reaches`).
-/
import HetuEngine.Comet.Proofs.Refines
import HetuEngine.Comet.Proofs.VoteSet

namespace HetuEngine.Comet

open Lib VoteSet HeightVoteSet
open Relation (ReflTransGen)

variable {c : Primitives} {s : State} {e : Event}

-- ==== the order

def State.hrs (s : State) : HRS := toLex (s.height, toLex (s.round, s.step.num))

lemma hrs_receive_le (hs : s.voter.Sane) (e : Event) :
    s.hrs ≤ (s.receive c e).hrs :=
  invariant_of_effects (I := fun n => s.voter.hrs ≤ n.hrs)
    (fun _ _ hmove hle => hle.trans hmove.hrs_le) (receive_moves hs e) (le_refl _)

lemma hrs_run_le (hs : s.voter.Sane) (es : List Event) :
    s.hrs ≤ (s.run c es).hrs := by
  induction es generalizing s with
  | nil => exact le_refl _
  | cons e es ih => exact (hrs_receive_le hs e).trans (ih (sane_receive hs e))

lemma height_le_of_hrs {s' : State} (h : s.hrs ≤ s'.hrs) :
    s.height ≤ s'.height :=
  @Voter.height_le_of_hrs s.voter s'.voter h

-- ==== one height

variable {hvs : HeightVoteSet} {cause : Cause}

variable {k : Crypto} {height : Int}

lemma majority_of_height
    (h : hvs.Counts k fun v => v.height = height ∧ v.blockID.sized)
    (hne : hvs.height ≠ height) (round : Int) (type : SignedMsgType) :
    VoteSet.twoThirdsMajority (hvs.getVoteSet round type) = none := by
  cases hid : twoThirdsMajority (hvs.getVoteSet round type) with
  | none => rfl
  | some id =>
    obtain ⟨A, -, hquorum, hA⟩ := h.quorum_of_majority (fun v hv => hv.2) hid
    cases A with
    | nil =>
      have htotal := weigh_powerAt_le hvs.valSet List.nodup_nil
      rw [Weight.weigh_nil] at htotal hquorum
      omega
    | cons i A =>
      obtain ⟨val, v, -, -, hv, -, hheight, -⟩ := hA i List.mem_cons_self
      exact absurd (hheight.symm.trans hv.1) hne

/-- Within one event: the node is at the height where it began, or at the
next one, where it has no majority to commit on. -/
def Stage (k : Crypto) (height : Int) (n : Voter) : Prop :=
  n.height = height ∨ (n.height = height + 1 ∧ n.step ≠ .commit
    ∧ n.votes.height = n.height ∧ n.votes.Counts k fun v => v.height = height ∧ v.blockID.sized)

lemma Stage.move {n n' : Voter}
    (hk : ∀ v, cause.vote v → v.height = height ∧ v.blockID.sized)
    (hmove : n.Move k cause n') (h : Stage k height n) :
    Stage k height n' := by
  rcases h with heq | ⟨heq, hstep, hvotes, hcounts⟩
  · rcases hmove.height_cases with hsame | ⟨-, hnext, hnew, chainID, vals, ext, hvotes, -⟩
    · exact .inl (hsame.trans heq)
    refine .inr ⟨heq ▸ hnext, ?_, ?_, ?_⟩
    · rw [hnew]
      decide
    · rw [hvotes, hnext]
      rfl
    rw [hvotes]
    exact counts_new _ _ _ _
  have hsame : n'.height = n.height := by
    rcases hmove.height_cases with hsame | ⟨hcommit, -⟩
    · exact hsame
    exact absurd hcommit hstep
  refine .inr ⟨hsame.trans heq, fun hcommit => ?_, ?_⟩
  · rcases hmove.commit_cases hcommit with hbefore | ⟨round, id, hd⟩
    · exact hstep hbefore
    have hnone : n.decision round = none := majority_of_height hcounts (by omega) round .precommit
    rw [hnone] at hd
    cases hd
  rcases hmove.votes_eq_or_grows with hlt | hvotes' | hgrows
  · omega
  · rw [hvotes', hsame]
    exact ⟨hvotes, hcounts⟩
  refine ⟨?_, hcounts.grows (hgrows.mono hk)⟩
  rw [hsame, ← hvotes]
  exact congrArg (fun f => f.2.1) hgrows.frame

/-- An event takes a node at most to the next height. -/
lemma height_receive_le (hs : s.voter.Sane) (e : Event) :
    (s.receive c e).height ≤ s.height + 1 := by
  have hstage : Stage c.toCrypto s.height (s.receive c e).voter :=
    invariant_of_effects (I := Stage c.toCrypto s.height)
      (fun _ _ => Stage.move fun _ hv => vote_of_cause hs hv) (receive_moves hs e) (.inl rfl)
  rcases hstage with heq | ⟨heq, -⟩
  · exact heq.le.trans (Int.le_of_lt (Int.lt_succ _))
  exact heq.le

-- ==== the condition

/-- There are +2/3 votes, or there would be with the power of this vote: of
any votes, or of those for its block id. -/
def VoteSet.reaches (vs : VoteSet) (v : Vote) : Bool :=
  let power : Int := vs.valSet.powerAt v.validatorIndex.toNat
  vs.maj23.isSome || vs.quorum ≤ vs.sum + power
    || vs.quorum ≤ (vs.votesByBlock.lookup v.blockID.key).elim 0 BlockVotes.sum + power

/-- The part set that the node has is the one of this block id, if it is the
id of a block. -/
def State.settled (s : State) (id : BlockID) : Bool :=
  id.hash.length = 0 || hasHeader s.proposalBlockParts id.partSetHeader

/-- In the commit step, a vote that arrives does not reach +2/3 votes of a
later round; and if it finds or reaches +2/3 prevotes of the current round,
they are for nil or for the part set that the node has. -/
def State.quiet (s : State) (e : Event) : Bool :=
  match e.input with
  | .message (.vote v) _ =>
    s.step ≠ .commit || v.height ≠ s.height || (v.round ≤ s.round
          || !(s.votes.view v.round v.type).reaches v)
        && (v.type ≠ .prevote || v.round ≠ s.round ||
          match VoteSet.twoThirdsMajority (s.votes.prevotes s.round) with
          | some id => s.settled id
          | none => !(s.votes.view v.round v.type).reaches v
              || s.settled v.blockID)
  | _ => true

namespace VoteSet

variable {k : Crypto} {vs vs' : VoteSet} {v : Vote}

variable {power : Int}

lemma place_sum {key : Bytes} {conflicting : Option Vote}
    (hpower : 0 ≤ power) (h : vs.place v key power = .ok (vs', conflicting)) :
    vs'.sum ≤ vs.sum + power := by
  rcases place_cases h with rfl | ⟨_, _, rfl | rfl, rfl⟩
  · exact le_add_of_nonneg_right hpower
  · exact le_add_of_nonneg_right hpower
  exact le_refl _

lemma record_sum {key : Bytes} {bv : BlockVotes} :
    (vs.record v key power bv).sum = vs.sum := by
  unfold record
  dsimp only
  split
  · rfl
  rfl

lemma addVerifiedVote_sum_le (bv : BlockVotes) (v : Vote)
    (hpower : 0 ≤ power) :
    (bv.addVerifiedVote v power).sum ≤ bv.sum + power := by
  unfold BlockVotes.addVerifiedVote
  split
  · exact le_add_of_nonneg_right hpower
  exact le_refl _

lemma reaches_self (htwo : vs.quorum ≤ vs.sum ∨ vs.maj23.isSome = true)
    (v : Vote) : vs.reaches v = true := by
  have hpower : (0 : Int) ≤ vs.valSet.powerAt v.validatorIndex.toNat := Int.natCast_nonneg _
  unfold reaches
  simp only [Bool.or_eq_true, decide_eq_true_eq]
  rcases htwo with hsum | hmaj
  · exact .inl (.inr (by omega))
  exact .inl (.inl hmaj)

/-- +2/3 votes after a vote was added were there before, or are reached with
its power. -/
lemma reaches_of_addVote {added : Bool} {err : Option VoteError}
    (h : vs.addVote k v = .ok (vs', added, err))
    (htwo : vs.quorum ≤ vs'.sum ∨ vs'.maj23.isSome = true) :
    vs.reaches v = true := by
  rcases addVote_cases h with rfl | ⟨val, vs₁, conflicting, hcheck, hplace, hrest⟩
  · exact reaches_self htwo v
  unfold reaches
  simp only [Bool.or_eq_true, decide_eq_true_eq]
  obtain ⟨hval, -⟩ := checkVote_ok hcheck
  have hpos := vs.valSet.power_pos val (List.mem_of_getElem? hval)
  have hat := ValidatorSet.powerAt_eq hval
  obtain ⟨hframe, hblocks, hmaj₁⟩ := place_ok hplace
  have hsum₁ := place_sum hpos.le hplace
  rcases hrest with rfl | ⟨bv, htracked, rfl⟩
  · rcases htwo with hsum | hmaj
    · exact .inl (.inr (by omega))
    exact .inl (.inl (hmaj₁ ▸ hmaj))
  rcases htwo with hsum | hmaj
  · rw [record_sum] at hsum
    exact .inl (.inr (by omega))
  rcases record_maj23 vs₁ v v.blockID.key val.votingPower bv with hsame | ⟨-, -, -, hquorum⟩
  · rw [hsame, hmaj₁] at hmaj
    exact .inl (.inl hmaj)
  refine .inr ?_
  rw [quorum_congr hframe] at hquorum
  have hle := addVerifiedVote_sum_le bv v hpos.le
  rcases tracked_eq_some htracked with hbv | ⟨hnone, hbv⟩
  · rw [← hblocks, hbv]
    dsimp only [Option.elim]
    omega
  rw [← hblocks, hnone]
  subst hbv
  have hzero : (BlockVotes.new false vs₁.valSet.size).sum = 0 := rfl
  dsimp only [Option.elim]
  omega

end VoteSet

lemma twoThirds_view {round : Int} {type : SignedMsgType}
    (h : twoThirds hvs round type) :
    (hvs.view round type).quorum ≤ (hvs.view round type).sum
      ∨ (hvs.view round type).maj23.isSome = true := by
  rcases h with hany | ⟨id, hid⟩
  · cases hget : hvs.getVoteSet round type with
    | none =>
      rw [hget] at hany
      cases hany
    | some vs =>
      rw [hget] at hany
      rw [view_of_getVoteSet hget]
      have hlt : vs.valSet.totalVotingPower * 2 / 3 < vs.sum := by
        simpa [hasTwoThirdsAny] using hany
      unfold quorum
      exact .inl (by omega)
  rw [majority_eq] at hid
  rw [hid]
  exact .inr rfl

lemma reaches_of_twoThirds {hvs' : HeightVoteSet} {v : Vote} {peerID : PeerID}
    {ext added : Bool} {err : Option VoteError}
    (h : hvs.addVote k v peerID ext = .ok (hvs', added, err))
    (htwo : twoThirds hvs' v.round v.type) :
    (hvs.view v.round v.type).reaches v = true := by
  have hview := twoThirds_view htwo
  rcases (addVote_ok h).2 with hsame | ⟨vs', _, _, hadd, hset⟩
  · rw [hsame] at hview
    exact reaches_self hview v
  rw [hset, if_pos ⟨rfl, rfl⟩] at hview
  have hframe := (VoteSet.Grows.addVote (k := fun _ => True) trivial hadd).frame
  rw [quorum_congr hframe] at hview
  exact reaches_of_addVote hadd hview

-- ==== quiet events

lemma quiet_skip (hq : s.quiet e = true) (hstep : s.step = .commit)
    {round : Int} (h : (s.cause c e).skip round) : round ≤ s.round := by
  obtain ⟨v, votes, ⟨peerID, added, err, he, -, hh, hadd⟩, rfl, htwo⟩ := h
  have hreaches := reaches_of_twoThirds hadd htwo
  unfold State.quiet at hq
  rw [he] at hq
  simpa [hstep, hh, hreaches] using (Bool.and_eq_true_iff.mp
    ((Bool.or_eq_true_iff.mp hq).resolve_left (by simp [hstep, hh]))).1

lemma quiet_valid (hq : s.quiet e = true) (hstep : s.step = .commit)
    {id : BlockID} (h : (s.cause c e).valid id) (hne : id.hash ≠ []) :
    hasHeader s.proposalBlockParts id.partSetHeader = true := by
  obtain ⟨v, votes, ⟨peerID, added, err, he, -, hh, hadd⟩, htype, hround, hid⟩ := h
  have hsettled : s.settled id = true := by
    have htwo : twoThirds votes v.round v.type := .inr ⟨id, htype ▸ hid⟩
    have hreaches := reaches_of_twoThirds hadd htwo
    have hgrows : s.votes.Grows c.toCrypto (· = v) votes := .addVote rfl hadd
    unfold State.quiet at hq
    rw [he] at hq
    have hq :=
      (Bool.and_eq_true_iff.mp
        ((Bool.or_eq_true_iff.mp hq).resolve_left (by simp [hstep, hh]))).2
    have hq := (Bool.or_eq_true_iff.mp hq).resolve_left (by simp [htype, hround])
    cases hp : twoThirdsMajority (s.votes.prevotes s.round) with
    | some id' =>
      rw [hp] at hq
      have hid' := hgrows.majority hp
      rw [hround] at hid
      obtain rfl := Option.some.inj (hid'.symm.trans hid)
      exact hq
    | none =>
      rw [hp] at hq
      rw [hround] at hid
      rw [prevotes, majority_eq] at hp hid
      have hq : s.settled v.blockID = true := by simpa [hreaches] using hq
      rcases (hgrows.view s.round .prevote).maj23 with hsame | ⟨-, w, hw, -, -, hsome⟩
      · rw [hsame, hp] at hid
        cases hid
      rw [hsome] at hid
      rw [← Option.some.inj hid, hw]
      exact hq
  unfold State.settled at hsettled
  simpa [List.length_eq_zero_iff, hne] using hsettled

-- ==== the commit step

/-- What the commit step keeps of a voter: a later height, or the same
round, commit round and part set. -/
def Keeps (n n' : Voter) : Prop :=
  n.height < n'.height ∨ (n'.height = n.height ∧ n'.round = n.round
    ∧ n'.step = .commit ∧ n'.commitRound = n.commitRound ∧ n'.parts = n.parts)

lemma Keeps.move {n₀ n n' : Voter}
    (hskip : ∀ round, cause.skip round → round ≤ n₀.round)
    (hvalid : ∀ id, cause.valid id → id.hash ≠ [] →
      ∃ p, n₀.parts = some p ∧ p.2 = id.partSetHeader)
    (hparts : n₀.parts.isSome) (hmove : n.Move k cause n') (h : Keeps n₀ n) :
    Keeps n₀ n' := by
  rcases h with hlt | ⟨hheight, hround, hstep, hcommit, hsame⟩
  · rcases hmove.height_cases with heq | ⟨-, heq, -⟩
    · exact .inl (heq ▸ hlt)
    exact .inl (by omega)
  -- the moves that are made before the commit step only
  have hnot : ∀ step : Step, ¬ n.step < step := by
    intro step
    rw [hstep]
    cases step <;> decide
  cases hmove with
  | newRound round hr hc =>
    exfalso
    rcases hr with hlt | ⟨-, hnew⟩
    · have := hskip round (hc hstep)
      omega
    rw [hstep] at hnew
    cases hnew
  | advance step hs h | prevote hs hid ho | relock hs hp hl
  | lock hs hp hh hl hb | fetch i hs hp | precommit hs hid ho
  | commit hs hr hd hh hb => exact absurd hs (hnot _)
  | valid hv hp hh hb hps hsome =>
    refine .inr ⟨hheight, hround, hstep, hcommit, ?_⟩
    rcases hps with heq | ⟨i, -, hother⟩
    · exact heq.trans hsame
    obtain ⟨p, hp, hheader⟩ := hvalid _ hv hh
    exact absurd hheader (hother p (hsame.trans hp))
  | parts p hp =>
    rw [← hsame, hp] at hparts
    cases hparts
  | nextHeight chainID vals ext key hs hn hkey => exact .inl (by dsimp only; omega)
  | schedule ti hh hr hs | votes hg | unlock hp hr hl hne | block hp hb
  | finalize hs hd hh hb hcall hc hblock hp | abort p h =>
    exact .inr ⟨hheight, hround, hstep, hcommit, hsame⟩

lemma keeps_receive (hs : s.voter.Sane) (hstep : s.step = .commit)
    (hq : s.quiet e = true) : Keeps s.voter (s.receive c e).voter := by
  refine invariant_of_effects (I := Keeps s.voter)
    (fun _ _ => Keeps.move (fun round h => quiet_skip hq hstep h) (fun id h hne => ?_)
    (hs.commitParts hstep)) (receive_moves hs e) (.inr ⟨rfl, rfl, hstep, rfl, rfl⟩)
  exact hasHeader_iff.mp (quiet_valid hq hstep h hne)

/-- The identity and the header of the part set that a node has. -/
def State.partSet (s : State) : Option (Nat × PartSetHeader) :=
  s.proposalBlockParts.map PartSetPtr.handle

lemma run_append (es₁ es₂ : List Event) :
    s.run c (es₁ ++ es₂) = (s.run c es₁).run c es₂ :=
  List.foldl_append

lemma commit_kept (hs : s.voter.Sane) {pre es : List Event}
    (hstep : (s.run c pre).step = .commit)
    (hquiet : Along (fun before e => (s.run c before).quiet e = true) pre es)
    (hheight : (s.run c (pre ++ es)).height = (s.run c pre).height) :
    (s.run c (pre ++ es)).step = .commit
      ∧ (s.run c (pre ++ es)).commitRound = (s.run c pre).commitRound
      ∧ (s.run c (pre ++ es)).partSet = (s.run c pre).partSet := by
  induction es using List.reverseRecOn with
  | nil =>
    rw [List.append_nil]
    exact ⟨hstep, rfl, rfl⟩
  | append_singleton es e ih =>
    rw [along_concat] at hquiet
    rw [← List.append_assoc] at hheight ⊢
    have hsane := sane_run (c := c) hs (pre ++ es)
    have hlast : s.run c (pre ++ es ++ [e]) = (s.run c (pre ++ es)).receive c e := run_append _ _
    have hle : (s.run c pre).height ≤ (s.run c (pre ++ es)).height := by
      rw [run_append]
      exact height_le_of_hrs (hrs_run_le (sane_run hs pre) es)
    have hle' : (s.run c (pre ++ es)).height ≤ (s.run c (pre ++ es ++ [e])).height := by
      rw [hlast]
      exact height_le_of_hrs (hrs_receive_le hsane e)
    obtain ⟨hstep', hround', hparts'⟩ := ih hquiet.1 (by omega)
    rw [hlast] at hheight ⊢
    rcases keeps_receive (c := c) hsane hstep' hquiet.2 with hlt |
      ⟨-, -, hstep'', hround'', hparts''⟩
    · have hlt : (s.run c (pre ++ es)).height < ((s.run c (pre ++ es)).receive c e).height := hlt
      omega
    exact ⟨hstep'', hround''.trans hround', hparts''.trans hparts'⟩

/-- In every run, height, round and step never go back, and an event takes
a node at most to the next height; and as long as no event brings +2/3 votes
of a later round or of another part set, a node in the commit step keeps
step, commit round and part set until it is at the next height. -/
theorem commit_absorbing (config : Config) (st : ChainState)
    (lastCommit : Option VoteSet) (pubKey : Option Bytes) (es es' : List Event) :
    let start := State.new config st lastCommit pubKey
    let s := start.run c es
    let s' := start.run c (es ++ es')
    s.hrs ≤ s'.hrs ∧ (∀ e, (s.receive c e).height ≤ s.height + 1)
      ∧ (s.step = .commit →
        Along (fun before e => (start.run c before).quiet e = true) es es' →
        s'.height = s.height →
        s'.step = .commit ∧ s'.commitRound = s.commitRound ∧ s'.partSet = s.partSet) := by
  intro start s s'
  have hstart : start.voter.Sane := sane_new config st lastCommit pubKey
  have hs : s.voter.Sane := sane_run hstart es
  refine ⟨?_, height_receive_le hs, commit_kept hstart⟩
  show s.hrs ≤ (start.run c (es ++ es')).hrs
  rw [run_append]
  exact hrs_run_le hs es'

def sampleChain (lastBlockHeight : Nat) : ChainState where
  chainID := "hetu"
  initialHeight := 1
  lastBlockHeight := lastBlockHeight
  validators := sampleValidators
  maxBytes := 1000
  voteExtensionsEnableHeight := 0
  appHash := []
  initialHeight_pos := by decide
  lastBlockHeight_nonneg := Int.natCast_nonneg _

def sampleBlock (b : UInt8) (data : Bytes) : Block where
  hash := List.replicate 32 b
  height := 1
  time := 0
  data := data
  hash_size := by simp [validateHash, tmhashSize]

/-- A signature is the key of the signer; a block is decoded from its first
byte, and what follows is ignored. -/
def samplePrimitives : Primitives where
  address := id
  verifySignature pubKey _ sig := sig = pubKey
  voteSignBytes _ _ := []
  voteExtensionSignBytes _ _ := []
  proposalSignBytes _ _ := []
  verifyProof _ _ _ := true
  decodeBlock bytes := bytes.head?.map fun b => sampleBlock b bytes

def sampleEnv (key : Bytes) : Env where
  now := 1
  validateBlock _ block := block.hash ≠ []
  processProposal _ _ := some true
  createProposalBlock := none
  makePartSet _ := none
  signProposal _ := none
  flushAndSync := true
  extendVote _ := none
  signVote _ := some ⟨key, 1, []⟩
  verifyVoteExtension _ := true
  blockStoreHeight := 0
  saveBlock _ _ _ := true
  applyVerifiedBlock _ _ _ := some (sampleChain 1)
  getPubKey := none
  blockMetaAppHash _ := none
  publishVote := true
  publishUnlock := true
  publishValidBlock := true
  validateBlock_hash _ block h := by simpa using h

def sampleNode (pubKey : Option Bytes) : State :=
  State.new ⟨false, false, false, true⟩ (sampleChain 0) none pubKey

def sampleEvent (input : Input) : Event := ⟨sampleEnv [], input⟩

/-- The node enters the first round and receives the precommits of three
quarters of the power for a block that it does not have. -/
def committing : List Event :=
  [sampleEvent (.timeout ⟨1, 0, .newHeight⟩), sampleEvent (.message (.vote
      (sampleVote .precommit 0 (sampleID 9) 0)) "peer")]

def nextRoundPrevote (index : Nat) : Event :=
  sampleEvent (.message (.vote (sampleVote .prevote 1 (sampleID 9) index)) "peer")

/-- With the prevote of one quarter, the node stays in the commit step and
keeps the part set it is filling. -/
theorem commit_absorbing_quarter :
    let s := (sampleNode none).run samplePrimitives committing
    let s' := (sampleNode none).run samplePrimitives (committing ++ [nextRoundPrevote 1])
    s.partSet = some (0, ⟨1, List.replicate 32 9⟩) ∧ s'.step = .commit
      ∧ s'.commitRound = s.commitRound ∧ s'.partSet = s.partSet :=
  ⟨by decide +kernel, (commit_absorbing ⟨false, false, false, true⟩
    (sampleChain 0) none none committing [nextRoundPrevote 1]).2.2
    (by decide +kernel) (by decide +kernel) (by decide +kernel)⟩

/-- With the prevote of three quarters, the node leaves the commit step for
round 1 and drops the part set. -/
theorem commit_left : let s := (sampleNode none).run samplePrimitives committing
    let s' := s.receive samplePrimitives (nextRoundPrevote 0)
    s.step = .commit ∧ s.commitRound = 0
      ∧ s.partSet = some (0, ⟨1, List.replicate 32 9⟩)
      ∧ s'.height = s.height ∧ s'.round = 1 ∧ s'.step = .propose ∧ s'.partSet = none := by
  decide +kernel

end HetuEngine.Comet
