/-
The consensus state machine refines the voter.

`State.voter` forgets what safety does not depend on: proposals, valid
blocks, contents of part sets, the last commit. Each function of the source
performs moves of the voter and nothing else (`Acts`); there is one lemma for
each function, in the order of the source, and a caller uses the lemma of
what it calls. The result is `receive_moves`: handling one input is a
sequence of moves.

# Rounds

The guards of `enterPropose`, `enterPrevote` and the others let a round pass
that is ahead of the node's. It does not come to that: who calls them has
just entered the round, or handles a timeout that was scheduled in it. So
these lemmas ask for `round ≤ s.round`, and `enterNewRound` provides it.
-/
import HetuEngine.Comet.Voter

namespace HetuEngine.Comet

open Lib Does VoteSet State Step Block
open Relation (ReflTransGen)

/-- What a node is as a voter. -/
def State.voter (s : State) : Voter where
  pubKey := s.privValidatorPubKey
  lastBlockHeight := s.chain.lastBlockHeight
  height := s.height
  round := s.round
  step := s.step
  block := s.proposalBlock.map Block.hash
  parts := s.proposalBlockParts.map PartSetPtr.handle
  lockedRound := s.lockedRound
  locked := s.lockedBlock.map Block.hash
  lockedParts := s.lockedBlockParts.map PartSetPtr.handle
  votes := s.votes
  commitRound := s.commitRound
  scheduled := s.scheduled
  signed := s.signed
  finalizing := s.finalizing
  panicked := s.panicked

/-- The event brings a vote of the node's height, and adding it makes its
votes these. -/
def State.adds (c : Primitives) (s : State) (e : Event) (v : Vote) (votes : HeightVoteSet) : Prop :=
  ∃ peerID added err, e.input = .message (.vote v) peerID
    ∧ s.arrives (.vote v) peerID = true ∧ v.height = s.height ∧ s.votes.addVote c.toCrypto v peerID
    (s.chain.voteExtensionsEnabled v.height) = .ok (votes, added, err)

/-- +2/3 of the votes of this round and type are there, for one block id or
not. -/
def twoThirds (votes : HeightVoteSet) (round : Int) (type : SignedMsgType) :
    Prop :=
  VoteSet.hasTwoThirdsAny (votes.getVoteSet round type) = true
    ∨ ∃ id, VoteSet.twoThirdsMajority (votes.getVoteSet round type) = some id

/-- What an event can bring about at a node: by the vote that arrives, and
by the block that is decoded when the part that arrives is the last one. -/
def State.cause (c : Primitives) (s : State) (e : Event) : Cause where
  vote v := ∃ votes, s.adds c e v votes
  block header b := ∃ height round part peerID ptr ps, e.input = .message
    (.blockPart height round part) peerID ∧ s.arrives (.blockPart height round part) peerID = true
    ∧ s.proposalBlockParts = some ptr ∧ ptr.set.header = header
    ∧ ptr.set.addPart c.verifyProof part = .ok (ps, true) ∧ s.decoded c ps = some b
  skip round := ∃ v votes, s.adds c e v votes ∧ v.round = round ∧ twoThirds votes v.round v.type
  valid id := ∃ v votes, s.adds c e v votes ∧ v.type = .prevote
    ∧ v.round = s.round ∧ VoteSet.twoThirdsMajority (votes.prevotes v.round) = some id
  next height chainID vals := ∃ st id block st', e.env.applyVerifiedBlock st id block = some st'
    ∧ st'.nextHeight = height ∧ st'.chainID = chainID ∧ st'.validators = vals
  key p := e.env.getPubKey = some p

variable {c : Primitives} {env : Env} {k : Cause} {s s' : State}

-- ==== the abstraction

/-- The header of a part set is the same through its handle. -/
lemma headerAt_handle (ptr : Option PartSetPtr) :
    headerAt (ptr.map PartSetPtr.handle) = headerOf ptr := by
  cases ptr with
  | none => rfl
  | some ptr => rfl

/-- `HashesTo`, on the hash that the voter keeps of a block. -/
lemma hashesTo_iff {block : Option Block} {hash : Bytes} :
    hashesTo block hash = true
      ↔ hash ≠ [] ∧ block.map Block.hash = some hash := by
  unfold hashesTo
  cases block with
  | none => simp
  | some block => simp

/-- `HasHeader`, on the handle that the voter keeps of a part set. -/
lemma hasHeader_iff {ptr : Option PartSetPtr} {header : PartSetHeader} :
    hasHeader ptr header = true
      ↔ ∃ p, ptr.map PartSetPtr.handle = some p ∧ p.2 = header := by
  unfold hasHeader PartSetPtr.handle
  cases ptr with
  | none => simp
  | some ptr => simp

/-- The voter does not see the parts of a part set. -/
lemma voter_writeParts (id : Nat) (contents : PartSet) :
    (s.writeParts id contents).voter = s.voter := by
  have hmap : ∀ ptr : Option PartSetPtr, (ptr.map (·.write id contents)).map PartSetPtr.handle
        = ptr.map PartSetPtr.handle := by
    intro ptr
    cases ptr with
    | none => rfl
    | some ptr => exact congrArg some (PartSetPtr.handle_write ptr id contents)
  unfold writeParts voter
  rw [hmap, hmap]

/-- A lock is on a block with a hash, so that a polka for nil is always for
something else. -/
lemma locked_ne (hs : s.voter.Sane) {hash : Bytes}
    (h : hashesTo s.lockedBlock hash = false) :
    s.voter.locked ≠ some hash := by
  intro heq
  have hne : hash ≠ [] := by
    intro hnil
    have hlen := hs.locked hash heq
    rw [hnil] at hlen
    cases hlen
  rw [hashesTo_iff.mpr ⟨hne, heq⟩] at h
  cases h

-- ==== effects

/-- One move, or a change of what the voter does not have. -/
def Effect (c : Primitives) (k : Cause) (s s' : State) : Prop :=
  s'.voter = s.voter ∨ s.voter.Move c.toCrypto k s'.voter

/-- Started in `s`, `m` performs moves only. -/
abbrev Acts {α : Type} (c : Primitives) (k : Cause) (m : M α) (s : State)
    (Q : α → State → Prop) : Prop :=
  Does (Effect c k) (fun _ => True) m s Q

section

variable (h : ReflTransGen (Effect c k) s s')

include h

/-- The invariant of the voter along effects. -/
lemma sane_of_effects (hs : s.voter.Sane) : s'.voter.Sane := by
  refine invariant_of_effects (I := fun s => s.voter.Sane) ?_ h hs
  intro s s' hr hs
  rcases hr with heq | hmove
  · rw [heq]
    exact hs
  exact hmove.sane hs

/-- Height, round and step do not go back. -/
lemma hrs_le_of_effects : s.voter.hrs ≤ s'.voter.hrs := by
  induction h with
  | refl => exact le_refl _
  | tail _ hr ih =>
    rcases hr with heq | hmove
    · rw [heq]
      exact ih
    exact ih.trans hmove.hrs_le

/-- Within a height, the round does not go back. -/
lemma round_le_of_effects (hh : s'.height = s.height) :
    s.round ≤ s'.round := by
  rcases Voter.hrs_le_iff.mp (hrs_le_of_effects h) with hlt | ⟨-, hr | hr⟩
  · exact absurd hlt (not_lt.mpr hh.le)
  · exact hr.le
  exact hr.1.le

lemma height_le_of_effects : s.height ≤ s'.height :=
  Voter.height_le_of_hrs (hrs_le_of_effects h)

end

variable {id : BlockID} {type : SignedMsgType} {p : Panic} {F : State → Prop}
  {height round : Int} {st : ChainState} {v : Vote} {e : Event}
  {peerID : PeerID}

/-- Within a height, +2/3 of the votes for a block id stay. -/
lemma majority_of_effects (h : ReflTransGen (Effect c k) s s')
    (hid : VoteSet.twoThirdsMajority (s.votes.getVoteSet round type) = some id)
    (hh : s'.height = s.height) :
    VoteSet.twoThirdsMajority (s'.votes.getVoteSet round type) = some id := by
  induction h with
  | refl => exact hid
  | @tail t t' ht hr ih =>
    have hle := height_le_of_effects ht
    have hle' := height_le_of_effects (.single hr)
    have hheight : t.height = s.height := by omega
    rcases hr with heq | hmove
    · have hvotes : t'.votes = t.votes := congrArg Voter.votes heq
      rw [hvotes]
      exact ih hheight
    exact hmove.majority (hh.trans hheight.symm) (ih hheight)

/-- The panic is none of `finalizeCommit`'s, or there was a call that had
to fail. -/
def Due (s : State) (p : Panic) : Prop :=
  p.finalizes = true → ∃ call ∈ s.finalizing, call.agrees = false

/-- Only the panics of `finalizeCommit` ask for anything. -/
lemma Due.of_other (h : p.finalizes = false) : Due s p := by
  intro hp
  rw [h] at hp
  cases hp

/-- A panic that is due is a move. -/
lemma effect_panic (h : Due s p) : Effect c k s { s with panicked := some p } := .inr (.abort p h)

variable {α β : Type} {Q : α → State → Prop} {R : β → State → Prop}

lemma acts_abort (h : Due s p) : Acts c k (abort p) s Q :=
  ⟨.single (effect_panic h), trivial⟩

variable {g : α → M β} {x : Except Panic α}

/-- A call that can panic, and what goes on with its result. -/
lemma acts_liftPanic (hp : ∀ p, x = .error p → Due s p)
    (hg : ∀ a, x = .ok a → Acts c k (g a) s R) :
    Acts c k (liftPanic x >>= g) s R := by
  cases x with
  | ok a => exact hg a rfl
  | error p => exact ⟨.single (effect_panic (hp p rfl)), trivial⟩

/-- A panic of the vote sets is always due. -/
lemma acts_liftVotes {x : Except VotePanic α}
    (hg : ∀ a, x = .ok a → Acts c k (g a) s R) :
    Acts c k (liftVotes x >>= g) s R := by
  cases x with
  | ok a => exact hg a rfl
  | error p => exact ⟨.single (effect_panic (.of_other rfl)), trivial⟩

lemma ends_liftPanic (hp : ∀ p, x = .error p → F { s with panicked := some p })
    (hg : ∀ a, x = .ok a → Q a s) : Ends (liftPanic x) s Q F := by
  cases x with
  | ok a => exact hg a rfl
  | error p => exact hp p rfl

/-- A timeout is scheduled for a round that the node has reached. -/
lemma acts_scheduleTimeout {step : Step} {Q : Unit → State → Prop} (hh : height = s.height)
    (hr : round ≤ s.round) (hstep : step < commit)
    (hQ : Q () { s with scheduled := ⟨height, round, step⟩ :: s.scheduled }) :
    Acts c k (scheduleTimeout height round step) s Q :=
  of_modify (.inr (.schedule ⟨height, round, step⟩ hh hr hstep)) hQ

-- ==== signing

/-- The vote that is signed is for the node's height and round. -/
lemma signVote_spec {key : Bytes} {out : Except Panic (Option Vote)}
    (h : s.signVote env type id c key = out) :
    match out with
    | .error p => p.finalizes = false
    | .ok none => True
    | .ok (some v) => v.type = type ∧ v.height = s.height ∧ v.round = s.round ∧ v.blockID = id := by
  unfold signVote at h
  split at h
  · subst h
    trivial
  dsimp only at h
  split at h
  · subst h
    trivial
  split at h
  · subst h
    trivial
  split at h
  · subst h
    rfl
  next v hv =>
  subst h
  unfold signAndCheckVote at hv
  dsimp only at hv
  repeat' split at hv
  all_goals cases hv
  all_goals exact ⟨rfl, rfl, rfl, rfl⟩

/-- `signAddVote` casts a vote as the voter does. -/
lemma castVote_spec {out : Except Panic (Option (Bytes × Vote))}
    (h : s.castVote env type id c = out) :
    match out with
    | .error p => p.finalizes = false
    | .ok out => s.voter.Casts type id out := by
  have hnone : s.voter.Casts type id none := by
    intro key v h
    cases h
  unfold castVote at h
  split at h
  · subst h
    exact hnone
  next pubKey hkey =>
  split at h
  · subst h
    exact hnone
  split at h
  · next hsign =>
    subst h
    exact signVote_spec hsign
  · subst h
    exact hnone
  next v hsign =>
  dsimp only at h
  split at h
  · subst h
    rfl
  subst h
  intro key v' heq
  cases heq
  exact ⟨hkey, signVote_spec hsign⟩

/-- Signing and sending a vote, up to what its caller does next. -/
lemma ends_signAddVote {Q : Unit → State → Prop}
    (hF : ∀ p, p.finalizes = false → F { s with panicked := some p })
    (hQ : ∀ out, s.voter.Casts type id out → Q () (s.emit out)) :
    Ends (signAddVote c env type id) s Q F := by
  refine Ends.get_bind (Ends.bind (ends_liftPanic ?_ ?_))
  · intro p hp
    exact hF p (castVote_spec hp)
  intro out hout
  exact hQ out (castVote_spec hout)

-- ==== prevote, propose

/-- The prevote is for the locked block, the proposal or nil. -/
lemma prevoteID_spec {out : Except Panic BlockID} (h : s.prevoteID env = out) :
    match out with
    | .error p => p.finalizes = false
    | .ok id => s.voter.Prevotes id := by
  unfold prevoteID at h
  split at h
  · next block hlock =>
    subst h
    have hl : s.voter.locked = some block.hash := congrArg (Option.map hash) hlock
    dsimp only
    rw [← headerAt_handle]
    exact .locked hl
  next hlock =>
  have hl : s.voter.locked = none := congrArg (Option.map hash) hlock
  split at h
  · subst h
    exact .nil hl
  next block hblock =>
  split at h
  · subst h
    exact .nil hl
  next hvalid =>
  split at h
  · subst h
    rfl
  · subst h
    exact .nil hl
  subst h
  have hb : s.voter.block = some block.hash := congrArg (Option.map hash) hblock
  have hh : block.hash ≠ [] := env.validateBlock_hash s.chain block (by simpa using hvalid)
  dsimp only
  rw [← headerAt_handle]
  exact .proposal hl hb hh

lemma ends_defaultDoPrevote {Q : Unit → State → Prop}
    (hF : ∀ p, p.finalizes = false → F { s with panicked := some p })
    (hQ : ∀ id out, s.voter.Prevotes id → s.voter.Casts .prevote id out →
      Q () (s.emit out)) : Ends (defaultDoPrevote c env) s Q F := by
  refine Ends.get_bind (Ends.bind (ends_liftPanic ?_ ?_))
  · intro p hp
    exact hF p (prevoteID_spec hp)
  intro id hid
  exact ends_signAddVote hF fun out hout => hQ id out (prevoteID_spec hid) hout

/-- A step is entered only from an earlier one of the same round. -/
lemma acts_entered {step : Step} {x : M Unit} {Q : Unit → State → Prop}
    (h : s.height = height → round ≤ s.round) (hQ : Q () s)
    (hx : s.height = height → s.round = round → s.step < step → Acts c k x s Q) :
    Acts c k (if s.height ≠ height ∨ round < s.round
      ∨ (s.round = round ∧ step ≤ s.step) then pure () else x) s Q := by
  split
  · exact of_pure hQ
  next hguard =>
  simp only [not_or, not_and, Decidable.not_not, not_lt] at hguard
  obtain ⟨hh, hle, hstep⟩ := hguard
  have hround : s.round = round := le_antisymm hle (h hh)
  exact hx hh hround (Nat.lt_of_not_le (hstep hround))

/-- A vote goes out and the step is set: one move of the voter. -/
lemma voter_cast (step : Step) (out : Option (Bytes × Vote)) :
    ((s.emit out).updateRoundStep s.round step).voter = { s.voter.emit out with step := step } := by
  cases out with
  | none => rfl
  | some kv => rfl

/-- The round's prevote is cast on entering the step. -/
lemma acts_enterPrevote (h : s.height = height → round ≤ s.round) :
    Acts c k (enterPrevote c env height round) s (fun _ _ => True) := by
  refine get_bind (acts_entered h trivial fun hh hround hlt => ?_)
  subst hround
  refine of_ends (fun _ => trivial) (Ends.bind (ends_defaultDoPrevote ?_ ?_))
  · exact fun p hp => .single (effect_panic (.of_other hp))
  intro id out hid hout
  refine Ends.of_modify ⟨.single (.inr ?_), trivial⟩
  rw [voter_cast]
  exact .prevote hlt hid hout

lemma acts_enterPrevoteWait (h : s.height = height → round ≤ s.round) :
    Acts c k (enterPrevoteWait height round) s (fun _ _ => True) := by
  refine get_bind (acts_entered h trivial fun hh hround hlt => ?_)
  split
  · exact acts_abort (.of_other rfl)
  subst hround
  refine bind (acts_scheduleTimeout (Q := fun _ t => t = _)
    hh.symm (le_refl _) (by decide) rfl) fun _ t _ ht => ?_
  subst ht
  exact of_modify (.inr (.advance .prevoteWait hlt (.inr rfl))) trivial

/-- Creating a block panics, but not as `finalizeCommit` does. -/
lemma createProposalBlock_error
    (h : s.createProposalBlock env = .error p) : p.finalizes = false := by
  unfold createProposalBlock at h
  repeat' split at h
  all_goals cases h
  rfl

lemma proposes_error (h : s.proposes c env height round = .error p) :
    p.finalizes = false := by
  unfold proposes at h
  split at h
  · cases h
  split at h
  · cases h
  split at h
  · unfold decideProposal at h
    dsimp only at h
    split at h
    · next q hq =>
      cases h
      split at hq
      · cases hq
      exact createProposalBlock_error hq
    · cases h
    split at h
    · cases h
    cases h
  cases h

/-- Proposing is nothing the voter sees, apart from the step. -/
lemma acts_enterPropose (h : s.height = height → round ≤ s.round) :
    Acts c k (enterPropose c env height round) s (fun _ _ => True) := by
  refine get_bind (acts_entered h trivial fun hh hround hlt => ?_)
  subst hround
  refine bind (acts_scheduleTimeout (Q := fun _ t => t = _)
    hh.symm (le_refl _) (by decide) rfl) fun _ t _ ht => ?_
  subst ht
  refine acts_liftPanic (fun p hp => .of_other (proposes_error hp)) fun messages _ => ?_
  refine modify_bind (.inl rfl) ?_
  refine modify_bind (.inr (.advance .propose hlt (.inl rfl))) ?_
  refine get_bind ?_
  split
  · exact acts_enterPrevote fun _ => le_refl _
  exact of_pure trivial

-- ==== new round

lemma acts_startRound (hh : s.height = height) (hr : s.round = round) :
    Acts c k (startRound c env height round) s (fun _ _ => True) := by
  refine get_bind ?_
  split
  · exact acts_abort (.of_other rfl)
  refine acts_liftVotes fun votes hvotes => ?_
  refine modify_bind (.inr (.votes (.setRound hvotes))) ?_
  split
  · split
    · exact acts_scheduleTimeout hh.symm hr.ge (by decide) trivial
    exact of_pure trivial
  exact acts_enterPropose fun _ => hr.ge

/-- From the commit step, a new round is entered on +2/3 votes only. -/
lemma acts_enterNewRound
    (hc : s.height = height → s.step = .commit → s.round < round →
      k.skip round) :
    Acts c k (enterNewRound c env height round) s
      (fun _ s' => s'.height = height → round ≤ s'.round) := by
  refine get_bind ?_
  split
  · next hguard =>
    refine of_pure fun hh => ?_
    rcases hguard with hne | hlt | ⟨heq, -⟩
    · exact absurd hh hne
    · exact hlt.le
    exact heq.ge
  next hguard =>
  simp only [not_or, not_and, Decidable.not_not, not_lt] at hguard
  obtain ⟨hh, hle, hstep⟩ := hguard
  have hr : s.round < round ∨ (s.round = round ∧ s.step = .newHeight) := by
    rcases hle.lt_or_eq with hlt | heq
    · exact .inl hlt
    exact .inr ⟨heq, hstep heq⟩
  have hmove : ∀ validators, Effect c k s (s.beginRound round validators) := by
    intro validators
    have hvoter : (s.beginRound round validators).voter = { s.voter with
            round := round
            step := .newRound
            block := if round ≠ 0 then none else s.voter.block
            parts := if round ≠ 0 then none else s.voter.parts } := by
      unfold beginRound voter
      split
      · rfl
      rfl
    refine .inr (hvoter ▸ .newRound round hr fun hcommit => ?_)
    rcases hr with hlt | ⟨-, hnew⟩
    · exact hc hh hcommit hlt
    exact absurd (hnew.symm.trans hcommit) (by decide)
  split
  · exact acts_abort (.of_other rfl)
  next validators _ =>
  refine modify_bind (hmove validators) ?_
  split
  · exact acts_abort (.of_other rfl)
  refine imp (acts_startRound hh rfl) ?_
  intro _ s' hs' _ hh'
  exact round_le_of_effects hs' (hh'.trans hh.symm)

-- ==== precommit

/-- What `enterPrecommit` does to the lock is a sequence of moves, after
which the voter may precommit what is precommitted. -/
lemma precommitID_spec {out : Except Panic (State × BlockID)}
    (h : s.precommitID env round = out) (hs : s.voter.Sane)
    (hround : s.round = round) (hstep : s.step < precommit) :
    match out with
    | .error p => p.finalizes = false
    | .ok (s', id) => ReflTransGen (Effect c k) s s'
      ∧ s'.voter.Precommits id ∧ s'.round = s.round ∧ s'.step = s.step := by
  subst hround
  unfold precommitID at h
  cases hp : twoThirdsMajority (s.votes.prevotes s.round) with
  | none =>
    rw [hp] at h
    subst h
    exact ⟨.refl, .nil, rfl, rfl⟩
  | some id =>
    have hpolka : s.voter.polka s.voter.round = some id := hp
    have hunlock : s.voter.locked ≠ some id.hash → Effect c k s s.unlock := fun hne =>
      .inr (.unlock hpolka (le_refl _) (.inr ⟨rfl, hstep⟩) hne)
    rw [hp] at h
    dsimp only at h
    split at h
    · subst h
      rfl
    split at h
    -- +2/3 prevoted nil
    · next hnil =>
      have hnil : id.hash = [] := List.length_eq_zero_iff.mp hnil
      subst h
      dsimp only
      split
      · exact ⟨.refl, .nil, rfl, rfl⟩
      refine ⟨.single (hunlock (locked_ne hs ?_)), .nil, rfl, rfl⟩
      unfold hashesTo
      simp [hnil]
    next hnil =>
    have hne : id.hash ≠ [] := by simpa [List.length_eq_zero_iff] using hnil
    split at h
    -- already locked on that block
    · next hlock =>
      have hl := (hashesTo_iff.mp hlock).2
      subst h
      exact ⟨.single (.inr (.relock hstep hpolka hl)), .locked hp hne hl rfl, rfl, rfl⟩
    next hlock =>
    have hl := locked_ne hs (Bool.eq_false_iff.mpr hlock)
    split at h
    -- +2/3 prevoted for the proposal block
    · next hblock =>
      have hb := (hashesTo_iff.mp hblock).2
      split at h
      · subst h
        exact ⟨.single (.inr (.lock hstep hpolka hne hl hb)), .locked hp hne hb rfl, rfl, rfl⟩
      subst h
      rfl
    -- a polka for a block we do not have
    · subst h
      dsimp only
      unfold fetch
      split
      · exact ⟨.single (hunlock hl), .nil, rfl, rfl⟩
      refine ⟨.tail (.single (hunlock hl)) (.inr ?_), .nil, rfl, rfl⟩
      exact .fetch s.partSetCount hstep hpolka

/-- A precommit is cast with the lock that goes with it; the node is not
brought to the commit step. -/
lemma acts_enterPrecommit (hs : s.voter.Sane)
    (h : s.height = height → round ≤ s.round) :
    Acts c k (enterPrecommit c env height round) s
      (fun _ s' => s'.step = .commit → s.step = .commit) := by
  refine get_bind (acts_entered h id fun hh hround hlt => ?_)
  refine acts_liftPanic (fun p hp => ?_) fun out hout => ?_
  · exact .of_other (precommitID_spec (c := c) (k := k) hp hs hround hlt)
  obtain ⟨s', id⟩ := out
  obtain ⟨heffects, hid, hround', hstep'⟩ := precommitID_spec (c := c) (k := k) hout hs hround hlt
  refine set_bind heffects ?_
  refine of_ends (fun _ => trivial) (Ends.bind (ends_signAddVote ?_ ?_))
  · exact fun p hp => .single (effect_panic (.of_other hp))
  intro out hout
  have hnot : precommit ≠ commit := by decide
  refine Ends.of_modify ⟨.single (.inr ?_), fun heq => absurd heq hnot⟩
  have hlt' : s'.step < precommit := hstep' ▸ hlt
  rw [← hround, ← hround', voter_cast]
  exact .precommit hlt' hid hout

lemma acts_enterPrecommitWait (h : s.height = height → round ≤ s.round) :
    Acts c k (enterPrecommitWait height round) s (fun _ _ => True) := by
  refine get_bind ?_
  split
  · exact of_pure trivial
  next hguard =>
  simp only [not_or, not_and, Decidable.not_not, not_lt] at hguard
  split
  · exact acts_abort (.of_other rfl)
  refine bind (acts_scheduleTimeout (Q := fun _ t => t = _)
    hguard.1.symm (h hguard.1) (by decide) rfl) fun _ t _ ht => ?_
  exact of_modify (.inl rfl) trivial

-- ==== commit

/-- A panic of one of the three checks means that the call had to fail. -/
lemma applyCommit_error (h : s.applyCommit env = .error p)
    (hp : p.finalizes = true) : s.finalizeCall.agrees = false := by
  unfold applyCommit at h
  unfold finalizeCall FinalizeCall.agrees
  cases hmaj : twoThirdsMajority (s.votes.precommits s.commitRound) with
  | none => rfl
  | some id =>
    rw [hmaj] at h
    dsimp only at h ⊢
    cases hparts : s.proposalBlockParts with
    | none => simp
    | some ptr =>
      rw [hparts] at h
      cases hblock : s.proposalBlock with
      | none => simp [hashesTo]
      | some block =>
        rw [hblock] at h
        dsimp only at h
        split at h
        · next hne => simp [hne]
        split at h
        · next hne =>
          have hfalse : hashesTo (some block) id.hash = false := by simpa using hne
          rw [hfalse]
          rfl
        split at h
        · cases h
          cases hp
        split at h
        · cases h
          cases hp
        split at h
        · cases h
          cases hp
        cases h

/-- Moving on to a state panics, but not as `finalizeCommit` does. -/
lemma updateToState_error (h : s.updateToState st = .error p) :
    p.finalizes = false := by
  unfold updateToState at h
  repeat' split at h
  all_goals cases h
  all_goals rfl

/-- After a commit, the state that is applied is the one of this height. -/
lemma updateToState_ok (hs : s.voter.Sane)
    (hcommit : s.step = .commit) (h : s.updateToState st = .ok s') :
    st.lastBlockHeight = s.height ∧ ∃ lastCommit,
    s' = s.reset st lastCommit := by
  have hround : 0 ≤ s.commitRound := hs.commitRound hcommit
  obtain ⟨hlast, hpos⟩ : s.chain.lastBlockHeight < s.height ∧ 0 < s.height := hs.height
  unfold updateToState at h
  split at h
  · cases h
  next hheight =>
  have hst : st.lastBlockHeight = s.height := by
    by_contra hne
    exact hheight ⟨by omega, hpos, fun heq => hne heq.symm⟩
  refine ⟨hst, ?_⟩
  split at h
  · cases h
  split at h
  · cases h
  split at h
  · omega
  split at h
  · omega
  split at h
  · split at h
    · cases h
    cases h
    exact ⟨_, rfl⟩
  omega

lemma updatePrivValidatorPubKey_eq (pubKey : Option Bytes) :
    ∃ key, s.updatePrivValidatorPubKey pubKey = { s with privValidatorPubKey := key }
      ∧ (key = s.privValidatorPubKey ∨ ∃ p, key = some p ∧ pubKey = some p) := by
  unfold updatePrivValidatorPubKey
  split
  · cases pubKey with
    | none => exact ⟨_, rfl, .inl rfl⟩
    | some p => exact ⟨_, rfl, .inr ⟨p, rfl, rfl⟩⟩
  exact ⟨_, rfl, .inl rfl⟩

/-- The answers of the application and of the private validator are among
the causes. -/
structure Answers (k : Cause) (env : Env) : Prop where
  next : ∀ st id block st', env.applyVerifiedBlock st id block = some st' →
    k.next st'.nextHeight st'.chainID st'.validators
  key : ∀ p, env.getPubKey = some p → k.key p

/-- The next state is what the application made of a block. -/
lemma applyCommit_ok (h : s.applyCommit env = .ok st) :
    ∃ chain id block, env.applyVerifiedBlock chain id block = some st := by
  unfold applyCommit at h
  repeat' split at h
  all_goals cases h
  next hst => exact ⟨_, _, _, hst⟩

/-- Going on to the next height is one move. -/
lemma nextHeight_spec {out : Except Panic State}
    (h : s.nextHeight env st = out) (hs : s.voter.Sane)
    (hcommit : s.step = .commit) (hk : Answers k env)
    (hst : ∃ chain id block, env.applyVerifiedBlock chain id block = some st) :
    match out with
    | .error p => p.finalizes = false
    | .ok s' => Effect c k s s' := by
  unfold nextHeight at h
  cases hupdate : s.updateToState st with
  | error p =>
    rw [hupdate] at h
    subst h
    exact updateToState_error hupdate
  | ok t =>
    obtain ⟨hlast, lastCommit, ht⟩ := updateToState_ok hs hcommit hupdate
    obtain ⟨key, hkey, hcause⟩ := updatePrivValidatorPubKey_eq (s := t) env.getPubKey
    obtain ⟨chain, id, block, happly⟩ := hst
    have hknext := hk.next chain id block st happly
    have hpos : 0 < s.height := hs.height.2
    have hnext : st.nextHeight = s.height + 1 := by
      unfold ChainState.nextHeight
      rw [hlast, if_neg (by omega)]
    rw [hupdate] at h
    dsimp only at h
    rw [hkey] at h
    subst ht h
    rw [hnext] at hknext
    refine .inr ?_
    unfold reset voter
    rw [hnext, hlast]
    refine .nextHeight st.chainID st.validators _ key hcommit hknext ?_
    rcases hcause with hsame | ⟨p, hp, hget⟩
    · exact .inl hsame
    exact .inr ⟨p, hp, hk.key p hget⟩

/-- A decided block that is there is finalized. -/
lemma acts_finalizeCommit (hk : Answers k env) (hs : s.voter.Sane)
    (hd : s.voter.decision s.commitRound = some id)
    (hb : hashesTo s.proposalBlock id.hash = true) :
    Acts c k (finalizeCommit env height) s (fun _ _ => True) := by
  obtain ⟨hh, hblock⟩ := hashesTo_iff.mp hb
  refine get_bind ?_
  split
  · exact of_pure trivial
  next hguard =>
  simp only [not_or, Decidable.not_not] at hguard
  have hcommit : s.step = .commit := hguard.2
  have hmove : Effect c k s
      { s with finalizing := s.finalizeCall :: s.finalizing } := by
    refine .inr (.finalize hcommit hd hh hblock rfl hd rfl ?_)
    show s.proposalBlockParts.map _ = (Option.map _ _).map _
    rw [Option.map_map]
    rfl
  refine modify_bind hmove (get_bind ?_)
  have hs' := sane_of_effects (.single hmove) hs
  refine acts_liftPanic (fun p hp hfin => ?_) fun st hst => ?_
  · exact ⟨_, List.mem_cons_self, applyCommit_error hp hfin⟩
  have happly := applyCommit_ok hst
  refine acts_liftPanic (fun p hp => .of_other ?_) fun t ht => ?_
  · exact nextHeight_spec (c := c) hp hs' hcommit hk happly
  exact ⟨.single (nextHeight_spec ht hs' hcommit hk happly), trivial⟩

/-- Nothing is finalized without the decided block. -/
lemma acts_tryFinalizeCommit (hk : Answers k env) (hs : s.voter.Sane) :
    Acts c k (tryFinalizeCommit env height) s (fun _ _ => True) := by
  refine get_bind ?_
  split
  · exact acts_abort (.of_other rfl)
  cases hd : twoThirdsMajority (s.votes.precommits s.commitRound) with
  | none => exact of_pure trivial
  | some id =>
    dsimp only
    split
    · next hb => exact acts_finalizeCommit hk hs hd hb
    exact of_pure trivial

/-- The block and the parts with which the commit step is entered. -/
lemma voter_enterCommit (round : Int) (id : BlockID) :
    ∃ block parts, s.voter.Commits id block parts ∧ (s.enterCommit round id).voter = { s.voter with
            block := block
            parts := parts
            step := .commit
            commitRound := round } := by
  unfold State.enterCommit
  dsimp only
  by_cases hlock : hashesTo s.lockedBlock id.hash = true
  · rw [if_pos hlock, if_pos hlock]
    exact ⟨_, _, .locked (hashesTo_iff.mp hlock).2, rfl⟩
  rw [if_neg hlock]
  by_cases hblock : hashesTo s.proposalBlock id.hash = true
  · rw [if_pos hblock]
    exact ⟨_, _, .proposal (hashesTo_iff.mp hblock).2, rfl⟩
  rw [if_neg hblock]
  unfold State.fetch
  split
  · next hheader =>
    obtain ⟨p, hp, hheader⟩ := hasHeader_iff.mp hheader
    exact ⟨_, _, .waiting hp hheader, rfl⟩
  exact ⟨_, _, .fetch s.partSetCount, rfl⟩

/-- A decision brings the node to the commit step, and to the next height if
the block is there. -/
lemma acts_enterCommit (hk : Answers k env) (hs : s.voter.Sane)
    (hr : 0 ≤ round)
    (hh : ∀ id, s.height = height → s.voter.decision round = some id →
      id.hash ≠ []) :
    Acts c k (enterCommit env height round) s (fun _ _ => True) := by
  refine get_bind ?_
  split
  · exact of_pure trivial
  next hguard =>
  simp only [not_or, Decidable.not_not] at hguard
  cases hd : twoThirdsMajority (s.votes.precommits round) with
  | none => exact acts_abort (.of_other rfl)
  | some id =>
    have hne := hh id hguard.1 hd
    obtain ⟨block, parts, hcommits, hvoter⟩ := voter_enterCommit (s := s) round id
    have hmove : Effect c k s (s.enterCommit round id) := by
      refine .inr (hvoter ▸ ?_)
      exact .commit (Nat.lt_of_not_le hguard.2) hr hd hne hcommits
    refine modify_bind hmove ?_
    exact acts_tryFinalizeCommit hk (sane_of_effects (.single hmove) hs)

-- ==== proposals and parts

/-- A proposal can start the part set of its block. -/
lemma acts_defaultSetProposal {proposal : Proposal} :
    Acts c k (defaultSetProposal c proposal) s (fun _ _ => True) := by
  refine get_bind ?_
  split
  · exact acts_abort (.of_other rfl)
  split
  · exact of_pure trivial
  next t ht =>
  refine ⟨.single ?_, trivial⟩
  unfold setProposal at ht
  split at ht
  · cases ht
    exact .inl rfl
  split at ht
  · cases ht
    exact .inl rfl
  split at ht
  · cases ht
  split at ht
  · cases ht
  split at ht
  · cases ht
  split at ht
  · next hnone =>
    cases ht
    refine .inr (.parts (s.partSetCount, _) ?_)
    show s.proposalBlockParts.map _ = none
    rw [Option.isNone_iff_eq_none.mp hnone]
    rfl
  cases ht
  exact .inl rfl

/-- The last part of a block brings the block. -/
lemma acts_addProposalBlockPart {part : Part}
    (hk : ∀ ptr ps b, s.proposalBlockParts = some ptr →
      ptr.set.addPart c.verifyProof part = .ok (ps, true) →
      s.decoded c ps = some b → k.block ptr.set.header b) :
    Acts c k (addProposalBlockPart c height part) s (fun _ _ => True) := by
  refine get_bind ?_
  split
  · exact of_pure trivial
  split
  · exact of_pure trivial
  next ptr hptr =>
  split
  · exact of_pure trivial
  · exact of_pure trivial
  next ps hps =>
  refine modify_bind (.inl (voter_writeParts ptr.id ps)) ?_
  split
  · exact of_pure trivial
  next b hb =>
  have hparts : s.voter.parts = some ptr.handle := congrArg (Option.map PartSetPtr.handle) hptr
  refine modify_bind (.inr ?_) (of_pure trivial)
  have hmove := Voter.Move.block (c := c.toCrypto) (k := k) hparts (hk ptr ps b hptr hps hb)
  rw [← voter_writeParts ptr.id ps] at hmove
  exact hmove

lemma voter_completeValid (majority : Option BlockID) :
    (s.completeValid majority).voter = s.voter := by
  unfold completeValid
  split
  · rfl
  split
  · rfl
  rfl

/-- With the block complete, the node goes on where it waited for it. -/
lemma acts_handleCompleteProposal (hk : Answers k env) (hs : s.voter.Sane) :
    Acts c k (handleCompleteProposal c env height) s (fun _ _ => True) := by
  refine get_bind (modify_bind (.inl (voter_completeValid _)) (get_bind ?_))
  have hs' : (s.completeValid (twoThirdsMajority (s.votes.prevotes s.round))).voter.Sane := by
    rw [voter_completeValid]
    exact hs
  split
  · refine bind (acts_enterPrevote fun _ => le_refl _) fun _ t ht _ => get_bind ?_
    split
    · exact (acts_enterPrecommit (sane_of_effects ht hs')
        fun _ => le_refl _).imp fun _ _ _ _ => trivial
    exact of_pure trivial
  split
  · exact acts_tryFinalizeCommit hk hs'
  exact of_pure trivial

-- ==== votes

/-- A polka of the current round changes the proposal's block, if at all. -/
lemma effect_updateValid (hv : round = s.round → k.valid id)
    (hp : s.voter.polka round = some id) (h : s.validates round id = true) :
    Effect c k s (s.updateValid round id) := by
  unfold validates at h
  simp only [Bool.and_eq_true, decide_eq_true_eq] at h
  obtain ⟨⟨hlen, -⟩, hround⟩ := h
  have hh : id.hash ≠ [] := fun hnil => hlen (hnil ▸ rfl)
  have hk := hv hround
  subst hround
  -- first the block, then the parts
  have hmove : ∀ t : State, t.partSetCount = s.partSetCount →
      t.proposalBlockParts = s.proposalBlockParts →
      (∃ block, (block = none ∨ (block = s.voter.block ∧ s.voter.block = some id.hash))
        ∧ t.voter = { s.voter with block := block }) →
      Effect c k s (if hasHeader t.proposalBlockParts id.partSetHeader then t
        else { t with
          proposalBlockParts := some (t.newParts id.partSetHeader)
          partSetCount := t.partSetCount + 1 }) := by
    intro t hcount hparts ⟨block, hblock, ht⟩
    refine .inr ?_
    split
    · next hheader =>
      rw [hparts] at hheader
      obtain ⟨p, hp', -⟩ := hasHeader_iff.mp hheader
      have hsome : s.voter.parts.isSome := by
        show (s.proposalBlockParts.map PartSetPtr.handle).isSome = true
        rw [hp']
        rfl
      rw [ht]
      exact .valid hk hp hh hblock (.inl rfl) hsome
    next hheader =>
    have hvoter : ({ t with
        proposalBlockParts := some (t.newParts id.partSetHeader)
        partSetCount := t.partSetCount + 1 } : State).voter
        = { s.voter with
            block := block
            parts := some (s.partSetCount, id.partSetHeader) } := by
      rw [← hcount]
      exact congrArg (fun n : Voter =>
        { n with parts := some (t.partSetCount, id.partSetHeader) }) ht
    rw [hvoter]
    refine .valid hk hp hh hblock (.inr ⟨_, rfl, ?_⟩) rfl
    intro p hsome heq
    exact hheader (hparts ▸ hasHeader_iff.mpr ⟨p, hsome, heq⟩)
  unfold updateValid
  split
  · next hblock => exact hmove _ rfl rfl ⟨_, .inr ⟨rfl, (hashesTo_iff.mp hblock).2⟩, rfl⟩
  exact hmove _ rfl rfl ⟨none, .inl rfl, rfl⟩

/-- A later polka for another block releases the lock. -/
lemma effect_unlocks (hs : s.voter.Sane) (hp : s.voter.polka round = some id)
    (h : s.unlocks round id = true) : Effect c k s s.unlock := by
  unfold unlocks at h
  simp only [Bool.and_eq_true, decide_eq_true_eq, Bool.not_eq_true'] at h
  obtain ⟨⟨⟨-, hlt⟩, hle⟩, hne⟩ := h
  exact .inr (.unlock hp hle (.inl hlt) (locked_ne hs hne))

lemma votes_updateValid : (s.updateValid round id).votes = s.votes := by
  unfold updateValid
  dsimp only
  split
  · split
    · rfl
    rfl
  split
  · rfl
  rfl

section

variable (hs : s.voter.Sane)

include hs

/-- What +2/3 of the prevotes do to the lock and the valid block. -/
lemma acts_onPolka (hv : round = s.round → k.valid id)
    (hp : s.voter.polka round = some id) :
    Acts c k (onPolka env round id) s (fun _ s' => s'.votes = s.votes) := by
  refine get_bind ?_
  obtain ⟨t, ht, hmove, hvotes, hround⟩ : ∃ t,
      t = (if s.unlocks round id = true then s.unlock else s)
        ∧ Effect c k s t ∧ t.votes = s.votes ∧ t.round = s.round := by
    refine ⟨_, rfl, ?_⟩
    split
    · next h => exact ⟨effect_unlocks hs hp h, rfl, rfl⟩
    exact ⟨.inl rfl, rfl, rfl⟩
  refine modify_bind (ht ▸ hmove) ?_
  rw [← ht]
  split
  · exact of_pure hvotes
  refine get_bind ?_
  split
  · next hvalid =>
    have hpt : t.voter.polka round = some id := by
      show twoThirdsMajority (t.votes.prevotes round) = some id
      rw [hvotes]
      exact hp
    exact modify_bind (effect_updateValid (fun heq => hv (heq.trans hround)) hpt hvalid)
      (of_pure (votes_updateValid.trans hvotes))
  exact of_pure hvotes

/-- Where the node goes on after a prevote of the current round or a later
one. -/
lemma acts_afterPrevote
    (hv : twoThirds s.votes round .prevote → k.skip round) :
    Acts c k (afterPrevote c env round) s (fun _ _ => True) := by
  refine get_bind ?_
  dsimp only
  split
  · next hany => exact (acts_enterNewRound fun _ _ _ => hv (.inl hany.2)).imp fun _ _ _ _ => trivial
  split
  · next hround =>
    have hle : s.height = s.height → round ≤ s.round := fun _ => hround.1.ge
    have hwait : Acts c k (if hasTwoThirdsAny
        (s.votes.prevotes round) then enterPrevoteWait s.height round
        else pure ()) s (fun _ _ => True) := by
      split
      · exact acts_enterPrevoteWait hle
      exact of_pure trivial
    split
    · split
      · exact (acts_enterPrecommit hs hle).imp fun _ _ _ _ => trivial
      exact hwait
    exact hwait
  split
  · split
    · exact acts_enterPrevote fun _ => le_refl _
    exact of_pure trivial
  exact of_pure trivial

/-- A prevote of the node's height was added. -/
lemma acts_addPrevote {err : Option VoteError}
    (hskip : twoThirds s.votes round .prevote → k.skip round)
    (hvalid : ∀ id, s.voter.polka round = some id → round = s.round →
      k.valid id) :
    Acts c k (addPrevote c env round err) s (fun _ _ => True) := by
  refine get_bind ?_
  cases hp : twoThirdsMajority (s.votes.prevotes round) with
  | none => exact bind (acts_afterPrevote hs hskip) fun _ _ _ _ => of_pure trivial
  | some id =>
    refine bind (acts_onPolka hs (hvalid id hp) hp) fun published t ht hvotes => ?_
    split
    · exact bind (acts_afterPrevote (sane_of_effects ht hs)
        (hvotes ▸ hskip)) fun _ _ _ _ => of_pure trivial
    exact of_pure trivial

/-- Round 0 is entered from the step before it only. -/
lemma acts_enterRoundZero :
    Acts c k (enterNewRound c env height 0) s (fun _ _ => True) := by
  have hround : 0 ≤ s.round := hs.round
  refine (acts_enterNewRound fun _ _ hlt => ?_).imp fun _ _ _ _ => trivial
  omega

/-- A precommit of the node's height was added. -/
lemma acts_addPrecommit (hk : Answers k env) (hr : 0 ≤ round)
    (hv : twoThirds s.votes round .precommit → k.skip round) :
    Acts c k (addPrecommit c env round) s (fun _ _ => True) := by
  refine get_bind ?_
  dsimp only
  cases hd : twoThirdsMajority (s.votes.precommits round) with
  | none =>
    dsimp only
    split
    · next hany =>
      exact bind (acts_enterNewRound fun _ _ _ => hv (.inl hany.2))
        fun _ t _ hround => acts_enterPrecommitWait hround
    exact of_pure trivial
  | some id =>
    refine bind (acts_enterNewRound fun _ _ _ => hv (.inr ⟨id, hd⟩)) fun _ t ht hround => ?_
    have hst := sane_of_effects ht hs
    refine bind (acts_enterPrecommit hst hround) fun _ u hu _ => ?_
    have hsu := sane_of_effects hu hst
    split
    · next hlen =>
      have hne : id.hash ≠ [] := fun hnil => hlen (hnil ▸ rfl)
      refine bind (acts_enterCommit hk hsu hr ?_) fun _ w hw _ => ?_
      · intro id' hheight hid'
        have hid := majority_of_effects (ht.trans hu) hd hheight
        obtain rfl := Option.some.inj (hid.symm.trans hid')
        exact hne
      refine get_bind ?_
      split
      · exact acts_enterRoundZero (sane_of_effects hw hsu)
      exact of_pure trivial
    refine acts_enterPrecommitWait fun hheight => ?_
    have hle := height_le_of_effects ht
    have hle' := height_le_of_effects hu
    have hheight' : t.height = s.height := by omega
    have hmono := round_le_of_effects hu (hheight.trans hheight'.symm)
    exact (hround hheight').trans hmono

/-- A late precommit for the last height. -/
lemma acts_addLastCommitVote :
    Acts c k (addLastCommitVote c env v) s (fun _ _ => True) := by
  refine get_bind ?_
  split
  · exact of_pure trivial
  split
  · exact acts_abort (.of_other rfl)
  refine acts_liftVotes fun out _ => ?_
  obtain ⟨lastCommit', added, err⟩ := out
  refine modify_bind (.inl rfl) ?_
  split
  · exact of_pure trivial
  split
  · exact of_pure trivial
  split
  · exact bind (acts_enterRoundZero hs) fun _ _ _ _ => of_pure trivial
  exact of_pure trivial

end

/-- What the environment of an event answers is among its causes. -/
lemma answers_cause (s : State) (e : Event) : Answers (s.cause c e) e.env :=
  ⟨fun st id block st' h => ⟨st, id, block, st', h, rfl, rfl, rfl⟩, fun _ h => h⟩

section

variable (hs : s.voter.Sane)

include hs

section

variable (he : e.input = .message (.vote v) peerID) (h : s.arrives (.vote v) peerID = true)
    (hr : 0 ≤ v.round)

include he h hr

/-- A vote is added, and the node acts on what it completes. -/
lemma acts_addVote :
    Acts c (s.cause c e) (addVote c e.env v peerID) s (fun _ _ => True) := by
  refine get_bind ?_
  split
  · exact acts_addLastCommitVote hs
  split
  · exact of_pure trivial
  next hheight =>
  have hheight : v.height = s.height := Decidable.not_not.mp hheight
  split
  · exact of_pure trivial
  refine acts_liftVotes fun out hout => ?_
  obtain ⟨votes, added, err⟩ := out
  have hadds : s.adds c e v votes := ⟨peerID, added, err, he, h, hheight, hout⟩
  have hmove : Effect c (s.cause c e) s { s with votes := votes } :=
    .inr (.votes (.addVote ⟨votes, hadds⟩ hout))
  have hs' := sane_of_effects (.single hmove) hs
  refine modify_bind hmove ?_
  split
  · exact of_pure trivial
  split
  · exact of_pure trivial
  split
  · next htype =>
    refine acts_addPrevote hs' (fun htwo => ?_) fun id hid hround => ?_
    · exact ⟨v, votes, hadds, rfl, htype ▸ htwo⟩
    exact ⟨v, votes, hadds, htype, hround, hid⟩
  · next htype =>
    refine bind (acts_addPrecommit hs' (answers_cause s e) hr fun htwo => ?_)
      fun _ _ _ _ => of_pure trivial
    exact ⟨v, votes, hadds, rfl, htype ▸ htwo⟩
  all_goals exact acts_abort (.of_other rfl)

/-- What `addVote` does, whatever becomes of its error. -/
lemma acts_tryAddVote :
    Acts c (s.cause c e) (tryAddVote c e.env v peerID) s
      (fun _ _ => True) := by
  refine bind (acts_addVote hs he h hr) fun out t _ _ => ?_
  obtain ⟨added, err⟩ := out
  dsimp only
  split
  · refine of_modify ?_ trivial
    split
    all_goals exact .inl rfl
  exact of_pure trivial

end

-- ==== inputs

/-- A timeout that was scheduled. -/
lemma acts_handleTimeout {ti : TimeoutInfo} (hti : ti ∈ s.scheduled) :
    Acts c k (handleTimeout c env ti) s (fun _ _ => True) := by
  obtain ⟨-, -, hround⟩ := hs.scheduled ti hti
  refine get_bind ?_
  split
  · exact of_pure trivial
  next hguard =>
  simp only [not_or, not_and, Decidable.not_not, not_lt] at hguard
  obtain ⟨hh, hle, hstep⟩ := hguard
  have hle' : s.height = ti.height → ti.round ≤ s.round := fun h => hround h.symm
  split
  · exact acts_enterRoundZero hs
  · exact acts_enterPropose hle'
  · exact acts_enterPrevote hle'
  · exact (acts_enterPrecommit hs hle').imp fun _ _ _ _ => trivial
  · next hwait =>
    -- the timeout is of this round and step, so not of a commit
    have hnot : s.step ≠ .commit := by
      intro hcommit
      have heq : ti.round = s.round := le_antisymm (hround hh) hle
      refine hstep heq ?_
      rw [hwait, hcommit]
      decide
    refine bind (acts_enterPrecommit hs hle') fun _ t _ ht => ?_
    refine (acts_enterNewRound fun _ hcommit _ => ?_).imp fun _ _ _ _ => trivial
    exact absurd (ht hcommit) hnot
  all_goals exact acts_abort (.of_other rfl)

/-- Transactions arrive that the node waited for. -/
lemma acts_handleTxsAvailable :
    Acts c k (handleTxsAvailable c env) s (fun _ _ => True) := by
  have hround : 0 ≤ s.round := hs.round
  refine get_bind ?_
  split
  · exact of_pure trivial
  split
  · split
    · exact of_pure trivial
    exact acts_scheduleTimeout rfl hround (by decide) trivial
  · exact acts_enterPropose fun _ => hround
  exact of_pure trivial

/-- A vote that arrives is of a round that exists, and for nil or a whole
hash. -/
lemma vote_of_arrives (h : s.arrives (.vote v) peerID = true) :
    0 ≤ v.round ∧ v.blockID.sized := by
  unfold arrives at h
  split at h
  · have hvalid : v.validateBasic = true := h
    refine ⟨?_, Vote.sized_of_validateBasic hvalid⟩
    unfold Vote.validateBasic at hvalid
    simp only [Bool.and_eq_true, decide_eq_true_eq] at hvalid
    omega
  obtain ⟨e, he, heq⟩ := List.any_eq_true.mp h
  have heq : e.vote = v := by simpa using heq
  exact heq ▸ hs.signed e he

/-- A vote that is added is of the node's height, and its block id has the
right sizes. -/
lemma vote_of_cause (hv : (s.cause c e).vote v) :
    v.height = s.height ∧ v.blockID.sized := by
  obtain ⟨votes, peerID, added, err, -, harrives, hheight, -⟩ := hv
  exact ⟨hheight, (vote_of_arrives hs harrives).2⟩

/-- A message that arrives. -/
lemma acts_handleMsg {msg : Message} (he : e.input = .message msg peerID)
    (h : s.arrives msg peerID = true) :
    Acts c (s.cause c e) (handleMsg c e.env msg peerID) s
      (fun _ _ => True) := by
  cases msg with
  | proposal proposal => exact acts_defaultSetProposal
  | blockPart height round part =>
    refine bind (acts_addProposalBlockPart ?_) fun added t ht _ => get_bind ?_
    · intro ptr ps b hptr hps hb
      exact ⟨height, round, part, peerID, ptr, ps, he, h, hptr, rfl, hps, hb⟩
    split
    · exact acts_handleCompleteProposal (answers_cause s e) (sane_of_effects ht hs)
    exact of_pure trivial
  | vote v => exact acts_tryAddVote hs he h (vote_of_arrives hs h).1

end

/-- Effects of the node are moves of the voter. -/
lemma voter_moves (h : ReflTransGen (Effect c k) s s') :
    ReflTransGen (Voter.Move · c.toCrypto k) s.voter s'.voter := by
  induction h with
  | refl => exact .refl
  | tail _ hr ih =>
    rcases hr with heq | hmove
    · rw [heq]
      exact ih
    exact ih.tail hmove

/-- Handling one input is a sequence of moves. -/
lemma receive_moves (hs : s.voter.Sane) (e : Event) :
    ReflTransGen (Voter.Move · c.toCrypto (s.cause c e)) s.voter
      (s.receive c e).voter := by
  unfold receive
  split
  · exact .refl
  unfold handle
  split
  · next msg peerID he =>
    split
    · next h => exact voter_moves (acts_handleMsg hs he h).effects
    exact .refl
  · split
    · next h => exact voter_moves (acts_handleTimeout hs h).effects
    exact .refl
  · exact voter_moves (acts_handleTxsAvailable hs).effects
  split
  · exact .single (.votes (.peerMaj23 _ _ _ _))
  exact .refl

/-- The invariant of the voter over one event. -/
lemma sane_receive (hs : s.voter.Sane) (e : Event) :
    (s.receive c e).voter.Sane :=
  invariant_of_effects (fun _ _ h => h.sane) (receive_moves hs e) hs

/-- The invariant of the voter over a run. -/
lemma sane_run (hs : s.voter.Sane) (es : List Event) :
    (s.run c es).voter.Sane := by
  induction es generalizing s with
  | nil => exact hs
  | cons e es ih => exact ih (sane_receive hs e)

/-- A node starts without a lock and without votes. -/
lemma sane_new (config : Config) (st : ChainState)
    (lastCommit : Option VoteSet) (pubKey : Option Bytes) :
    (State.new config st lastCommit pubKey).voter.Sane := by
  have hinit := st.initialHeight_pos
  have hlast := st.lastBlockHeight_nonneg
  have hheight : st.lastBlockHeight < st.nextHeight := by
    unfold ChainState.nextHeight
    split
    · omega
    omega
  refine
    { height := ⟨hheight, hlast.trans_lt hheight⟩
      round := le_refl _
      commitRound := fun h => by cases h
      scheduled := fun ti hti => ?_
      block := fun h heq => by cases heq
      locked := fun h heq => by cases heq
      parts := fun heq => by cases heq
      lockedParts := fun heq => by cases heq
      commitParts := fun heq => by cases heq
      votes := rfl
      signed := fun e he => by cases he }
  obtain rfl := List.mem_singleton.mp hti
  have hlt : newHeight < commit := by decide
  exact ⟨hlt, le_refl _, fun _ => le_refl _⟩

end HetuEngine.Comet
