/-
The lock discipline of one node.

A node that precommitted a block is locked on it, or has seen +2/3 prevotes
of a later round for something else (`Holds`). Every move keeps this: the
lock is given up in `enterPrecommit` and `addVote` only, each time on a
polka, and replaced in `enterPrecommit`, on a polka of the current round; and
a vote of the current round cannot have been cast before its step
(`Ordered`). What a locked node prevotes is its lock.

The votes that a node had when it signed are kept with the signed vote, so
"has seen" is a statement about those votes, and a majority is one of signed
votes with more than two thirds of the power (`Counted`).
-/
import HetuEngine.Comet.Proofs.Refines

namespace HetuEngine.Comet

open Lib Signed
open Lib.Weight (weigh)

-- ==== the order of votes

def SignedMsgType.step : SignedMsgType → Nat
  | .prevote => Step.prevote.num
  | .precommit => Step.precommit.num
  | .unknown | .proposal => 0

def Signed.pos (e : Signed) : HRS := toLex (e.vote.height, toLex (e.vote.round, e.vote.type.step))

namespace Voter

variable {c : Crypto} {k : Cause} {n n' : Voter} {e : Signed}

/-- The signed votes are prevotes and precommits in strictly increasing
order, the newest first, and not ahead of the voter. -/
structure Ordered (n : Voter) : Prop where
  types : ∀ e ∈ n.signed, e.vote.type = .prevote ∨ e.vote.type = .precommit
  bounded : ∀ e ∈ n.signed, e.pos ≤ n.hrs
  sorted : n.signed.Pairwise fun later earlier => earlier.pos < later.pos

lemma Signs.signed {key : Bytes} {v : Vote} (h : n.Signs n' key v) :
    n'.signed = ⟨key, v, n.votes⟩ :: n.signed := by
  rw [h.move]
  rfl

/-- A vote is signed in a step after those of all votes before, and this
step is the one the voter is then in. -/
lemma Signs.pos {key : Bytes} {v : Vote} (h : n.Signs n' key v) :
    n.hrs < (⟨key, v, n.votes⟩ : Signed).pos
      ∧ (⟨key, v, n.votes⟩ : Signed).pos = n'.hrs := by
  have hstep : n.step.num < v.type.step ∧ v.type.step = n'.step.num := by
    rcases h.phase with ⟨htype, hlt, hstep, -⟩ | ⟨htype, hlt, hstep, -⟩
    · rw [htype, hstep]
      exact ⟨hlt, rfl⟩
    rw [htype, hstep]
    exact ⟨hlt, rfl⟩
  constructor
  · unfold hrs Signed.pos
    rw [Prod.Lex.toLex_lt_toLex, Prod.Lex.toLex_lt_toLex]
    exact .inr ⟨h.height.symm, .inr ⟨h.round.symm, hstep.1⟩⟩
  unfold hrs Signed.pos
  rw [hstep.2, h.height, h.round, h.move]
  rfl

lemma Move.ordered (h : n.Move c k n') (ho : n.Ordered) : n'.Ordered := by
  rcases h.signed_cases with hsame | ⟨key, v, hsigns⟩
  · refine ⟨hsame ▸ ho.types, ?_, hsame ▸ ho.sorted⟩
    rw [hsame]
    exact fun e he => (ho.bounded e he).trans h.hrs_le
  obtain ⟨hlt, heq⟩ := hsigns.pos
  refine ⟨?_, ?_, ?_⟩
  · rw [hsigns.signed]
    intro e he
    rcases List.mem_cons.mp he with rfl | he
    · exact hsigns.phase.imp And.left And.left
    exact ho.types e he
  · rw [hsigns.signed]
    intro e he
    rcases List.mem_cons.mp he with rfl | he
    · exact heq.le
    exact (ho.bounded e he).trans h.hrs_le
  rw [hsigns.signed]
  exact List.pairwise_cons.mpr ⟨fun e he => (ho.bounded e he).trans_lt hlt, ho.sorted⟩

lemma Ordered.round_le (ho : n.Ordered) (he : e ∈ n.signed)
    (hh : e.vote.height = n.height) : e.vote.round ≤ n.round := by
  have hle := ho.bounded e he
  unfold hrs pos at hle
  rw [Prod.Lex.toLex_le_toLex, Prod.Lex.toLex_le_toLex] at hle
  omega

/-- Before the precommit step there is no precommit of this round. -/
lemma Ordered.round_lt (ho : n.Ordered) (he : e ∈ n.signed)
    (hh : e.vote.height = n.height) (ht : e.vote.type = .precommit)
    (hs : n.step < Step.precommit) : e.vote.round < n.round := by
  have hle := ho.bounded e he
  have hs : n.step.num < Step.precommit.num := hs
  unfold hrs pos at hle
  rw [Prod.Lex.toLex_le_toLex, Prod.Lex.toLex_le_toLex, ht] at hle
  dsimp only [SignedMsgType.step] at hle
  omega

end Voter

-- ==== locks

/-- There are +2/3 prevotes of a round after `r`, up to `r'`, for another
hash. -/
def HeightVoteSet.Releases (hvs : HeightVoteSet) (hash : Bytes) (r r' : Int) : Prop :=
  ∃ round id, r < round ∧ round ≤ r' ∧ id.hash ≠ hash
    ∧ VoteSet.twoThirdsMajority (hvs.prevotes round) = some id

namespace Voter

variable {c : Crypto} {k : Cause} {n n' : Voter} {e : Signed}

/-- The voter is locked on this hash since this round or a later one, or it
has been released. -/
def Holds (n : Voter) (hash : Bytes) (round : Int) : Prop :=
  (n.locked = some hash ∧ round ≤ n.lockedRound) ∨ n.votes.Releases hash round n.round

/-- There is no lock, or a lock on a block with +2/3 prevotes. -/
def LockSet (n : Voter) : Prop :=
  (n.lockedRound = -1 ∧ n.locked = none ∧ n.lockedParts = none)
    ∨ ∃ hash parts id, 0 ≤ n.lockedRound ∧ n.locked = some hash
      ∧ n.lockedParts = some parts ∧ n.polka n.lockedRound = some id ∧ id.hash = hash

structure Locks (n : Voter) : Prop where
  lock : n.LockSet
  held : ∀ e ∈ n.signed, e.vote.height = n.height
    → e.vote.type = .precommit → e.vote.blockID.hash ≠ [] → n.Holds e.vote.blockID.hash e.vote.round
  released : n.signed.Pairwise fun later earlier =>
    later.vote.height = earlier.vote.height →
    earlier.vote.type = .precommit → earlier.vote.blockID.hash ≠ [] →
    later.vote.type = .prevote →
    later.vote.blockID.hash ≠ earlier.vote.blockID.hash →
    later.votes.Releases earlier.vote.blockID.hash earlier.vote.round later.vote.round

lemma Move.lockSet (h : n.Move c k n') (hs : n.Sane) (hl : n.LockSet) :
    n'.LockSet := by
  cases h with
  | unlock hp hr hl' hne
  | nextHeight chainID vals ext key hc hn hkey => exact .inl ⟨rfl, rfl, rfl⟩
  | votes hg =>
    rcases hl with hnone | ⟨hash, parts, id, hr, hlock, hparts, hp, hid⟩
    · exact .inl hnone
    exact .inr ⟨hash, parts, id, hr, hlock, hparts, hg.majority hp, hid⟩
  | relock hstep hp hlock =>
    have hsome := hs.lockedParts (by rw [hlock]; rfl)
    obtain ⟨parts, hparts⟩ := Option.isSome_iff_exists.mp hsome
    exact .inr ⟨_, parts, _, hs.round, hlock, hparts, hp, rfl⟩
  | lock hstep hp hh hlock hb =>
    have hsome := hs.parts (by rw [hb]; rfl)
    obtain ⟨parts, hparts⟩ := Option.isSome_iff_exists.mp hsome
    exact .inr ⟨_, parts, _, hs.round, hb, hparts, hp, rfl⟩
  | _ => exact hl

/-- A vote that was held stays held. -/
lemma Move.holds (h : n.Move c k n') (ho : n.Ordered) (he : e ∈ n.signed)
    (hh : e.vote.height = n.height) (hh' : n'.height = n.height)
    (ht : e.vote.type = .precommit)
    (hold : n.Holds e.vote.blockID.hash e.vote.round) :
    n'.Holds e.vote.blockID.hash e.vote.round := by
  cases h with
  | unlock hp hr hl hne =>
    rcases hold with ⟨hlock, hle⟩ | hrel
    · refine .inr ⟨_, _, ?_, hr, ?_, hp⟩
      · rcases hl with hlt | ⟨heq, hstep⟩
        · exact hle.trans_lt hlt
        exact heq ▸ ho.round_lt he hh ht hstep
      exact fun heq => hne (heq ▸ hlock)
    exact .inr hrel
  | relock hstep hp hl =>
    rcases hold with ⟨hlock, -⟩ | hrel
    · exact .inl ⟨hlock, ho.round_le he hh⟩
    exact .inr hrel
  | lock hstep hp hne hl hb =>
    rcases hold with ⟨hlock, -⟩ | hrel
    · refine .inr ⟨_, _, ho.round_lt he hh ht hstep, le_refl _, ?_, hp⟩
      exact fun heq => hl (heq ▸ hlock)
    exact .inr hrel
  | votes hg =>
    rcases hold with hlock | ⟨round, id, hlt, hle, hne, hp⟩
    · exact .inl hlock
    exact .inr ⟨round, id, hlt, hle, hne, hg.majority hp⟩
  | newRound round hr hc =>
    rcases hold with hlock | ⟨round', id, hlt, hle, hne, hp⟩
    · exact .inl hlock
    exact .inr ⟨round', id, hlt, by dsimp only; omega, hne, hp⟩
  | nextHeight chainID vals ext key hc hn hkey =>
    dsimp only at hh'
    omega
  | _ => exact hold

/-- A prevote for something else than what was precommitted: the voter has
been released. -/
lemma Holds.released_of_prevotes {hash : Bytes} {round : Int}
    {id : BlockID} (h : n.Holds hash round) (hid : n.Prevotes id)
    (hne : id.hash ≠ hash) : n.votes.Releases hash round n.round := by
  rcases h with ⟨hlock, -⟩ | hrel
  · cases hid with
    | locked hl =>
      have heq := Option.some.inj (hl.symm.trans hlock)
      exact absurd heq hne
    | nil hl | proposal hl hb hh =>
      rw [hl] at hlock
      cases hlock
  exact hrel

lemma Move.locks (h : n.Move c k n') (hs : n.Sane) (ho : n.Ordered)
    (hl : n.Locks) : n'.Locks := by
  have hold : ∀ e ∈ n.signed, e.vote.height = n'.height → e.vote.type = .precommit
      → e.vote.blockID.hash ≠ [] → n'.Holds e.vote.blockID.hash e.vote.round := by
    intro e he hh ht hne
    rcases h.height_cases with hsame | ⟨-, hnext, -⟩
    · have hh : e.vote.height = n.height := hh.trans hsame
      exact h.holds ho he hh hsame ht (hl.held e he hh ht hne)
    -- nothing has been signed at the next height
    have hle := ho.bounded e he
    unfold hrs pos at hle
    rw [Prod.Lex.toLex_le_toLex] at hle
    omega
  rcases h.signed_cases with hsame | ⟨key, v, hsigns⟩
  · exact ⟨h.lockSet hs hl.lock, hsame ▸ hold, hsame ▸ hl.released⟩
  refine ⟨h.lockSet hs hl.lock, ?_, ?_⟩
  · rw [hsigns.signed]
    intro e he hh ht hne
    rcases List.mem_cons.mp he with rfl | he
    · rcases hsigns.phase with ⟨htype, -⟩ | ⟨-, -, -, hid⟩
      · rw [htype] at ht
        cases ht
      -- what is precommitted is the lock
      rw [hsigns.move]
      generalize v.blockID = id at hid hne
      cases hid with
      | nil => exact absurd rfl hne
      | locked hp hh hlock hr => exact .inl ⟨hlock, (hsigns.round.trans hr.symm).le⟩
    exact hold e he hh ht hne
  rw [hsigns.signed]
  refine List.pairwise_cons.mpr ⟨?_, hl.released⟩
  intro e he hh ht hne htv hother
  rcases hsigns.phase with ⟨-, -, -, hid⟩ | ⟨htype, -⟩
  · have hheight : e.vote.height = n.height := hh.symm.trans hsigns.height
    have hholds := hl.held e he hheight ht hne
    rw [hsigns.round]
    exact hholds.released_of_prevotes hid hother
  rw [htype] at htv
  cases htv

end Voter

-- ==== the majorities

/-- Validators with more than two thirds of the power signed votes of this
round and type for this block id. -/
def HeightVoteSet.Backs (c : Crypto) (hvs : HeightVoteSet) (round : Int)
    (type : SignedMsgType) (id : BlockID) : Prop :=
  ∃ A : List Nat, A.Nodup ∧ 2 * hvs.valSet.totalVotingPower < 3 * weigh hvs.valSet.powerAt A
    ∧ ∀ i ∈ A, ∃ val v, hvs.valSet.validators[i]? = some val ∧ c.SignedBy hvs.chainID val v
    ∧ v.type = type ∧ v.height = hvs.height ∧ v.round = round ∧ v.blockID = id

lemma HeightVoteSet.Counts.backs {c : Crypto} {hvs : HeightVoteSet}
    (h : hvs.Counts c fun v => v.blockID.sized) {round : Int}
    {type : SignedMsgType} {id : BlockID}
    (hid : VoteSet.twoThirdsMajority (hvs.getVoteSet round type) = some id) :
    hvs.Backs c round type id := by
  obtain ⟨A, hnodup, hquorum, hA⟩ := h.quorum_of_majority (fun _ h => h) hid
  refine ⟨A, hnodup, hquorum, fun i hi => ?_⟩
  obtain ⟨val, v, hval, hsigned, -, hrest⟩ := hA i hi
  exact ⟨val, v, hval, hsigned, hrest⟩

/-- The votes are counted right, now and when votes were signed. -/
def Voter.Counted (c : Crypto) (n : Voter) : Prop :=
  n.votes.Counts c (fun v => v.blockID.sized)
    ∧ ∀ e ∈ n.signed, e.votes.Counts c fun v => v.blockID.sized

lemma Voter.Move.counted {c : Crypto} {k : Cause} {n n' : Voter}
    (h : n.Move c k n') (hk : ∀ v, k.vote v → v.blockID.sized)
    (hc : n.Counted c) : n'.Counted c := by
  refine ⟨?_, ?_⟩
  · rcases h.height_cases with hsame | ⟨-, -, -, chainID, vals, ext, hnew, -⟩
    · rcases h.votes_eq_or_grows with hlt | heq | hgrows
      · omega
      · rw [heq]
        exact hc.1
      exact hc.1.grows (hgrows.mono hk)
    rw [hnew]
    exact HeightVoteSet.counts_new _ _ _ _
  rcases h.signed_cases with hsame | ⟨key, v, hsigns⟩
  · rw [hsame]
    exact hc.2
  rw [hsigns.signed]
  intro e he
  rcases List.mem_cons.mp he with rfl | he
  · exact hc.1
  exact hc.2 e he

-- ==== the runs

structure Voter.Sound (c : Crypto) (n : Voter) : Prop where
  sane : n.Sane
  ordered : n.Ordered
  locks : n.Locks
  counted : n.Counted c

lemma Voter.Move.sound {c : Crypto} {k : Cause} {n n' : Voter}
    (h : n.Move c k n') (hk : ∀ v, k.vote v → v.blockID.sized)
    (hn : n.Sound c) : n'.Sound c :=
  ⟨h.sane hn.sane, h.ordered hn.ordered, h.locks hn.sane hn.ordered hn.locks,
    h.counted hk hn.counted⟩

variable {c : Primitives} {s : State}

lemma sound_new (k : Crypto) (config : Config) (st : ChainState)
    (lastCommit : Option VoteSet) (pubKey : Option Bytes) :
    (State.new config st lastCommit pubKey).voter.Sound k where
  sane := sane_new config st lastCommit pubKey
  ordered := ⟨List.forall_mem_nil _, List.forall_mem_nil _, .nil⟩
  locks := { lock := .inl ⟨rfl, rfl, rfl⟩, held := List.forall_mem_nil _, released := .nil }
  counted := ⟨HeightVoteSet.counts_new _ _ _ _, List.forall_mem_nil _⟩

lemma sound_receive (h : s.voter.Sound c.toCrypto) (e : Event) :
    (s.receive c e).voter.Sound c.toCrypto :=
  invariant_of_effects (I := Voter.Sound c.toCrypto) (fun _ _ hmove => hmove.sound fun _ hv =>
      (vote_of_cause h.sane hv).2)
    (receive_moves h.sane e) h

lemma sound_run (h : s.voter.Sound c.toCrypto) (es : List Event) :
    (s.run c es).voter.Sound c.toCrypto := by
  induction es generalizing s with
  | nil => exact h
  | cons e es ih => exact ih (sound_receive h e)

/-- In every run: if a block is precommitted and something with another hash
prevoted in a later round of the height, then the votes at the time of the
prevote had +2/3 prevotes of a round in between for another hash; and the
lock is unset as a whole, or set as a whole with +2/3 prevotes of its round
for its block. -/
theorem lock_discipline (config : Config) (st : ChainState)
    (lastCommit : Option VoteSet) (pubKey : Option Bytes) (es : List Event) :
    let s := (State.new config st lastCommit pubKey).run c es
    (∀ newer later older earlier, s.signed = newer ++ later :: older →
      earlier ∈ older → earlier.vote.type = .precommit →
      earlier.vote.blockID.hash ≠ [] → later.vote.type = .prevote →
      later.vote.height = earlier.vote.height →
      earlier.vote.round < later.vote.round →
      later.vote.blockID.hash ≠ earlier.vote.blockID.hash →
      ∃ round id, earlier.vote.round < round ∧ round ≤ later.vote.round
        ∧ id.hash ≠ earlier.vote.blockID.hash
        ∧ VoteSet.twoThirdsMajority (later.votes.prevotes round) = some id
        ∧ later.votes.Backs c.toCrypto round .prevote id)
    ∧ ((s.lockedRound = -1 ∧ s.lockedBlock = none ∧ s.lockedBlockParts = none)
      ∨ ∃ block parts id, 0 ≤ s.lockedRound ∧ s.lockedBlock = some block
          ∧ s.lockedBlockParts = some parts ∧ id.hash = block.hash
          ∧ VoteSet.twoThirdsMajority (s.votes.prevotes s.lockedRound) = some id
          ∧ s.votes.Backs c.toCrypto s.lockedRound .prevote id) := by
  intro s
  have h : s.voter.Sound c.toCrypto := sound_run (sound_new _ config st lastCommit pubKey) es
  constructor
  · intro newer later older earlier hsigned hmem ht hne htl hh hlt hother
    have hpairs := h.locks.released
    have hsigned : s.voter.signed = newer ++ later :: older := hsigned
    have hlater : later ∈ s.voter.signed := by
      rw [hsigned]
      exact List.mem_append_right _ List.mem_cons_self
    rw [hsigned] at hpairs
    have hpair := (List.pairwise_cons.mp (List.pairwise_append.mp hpairs).2.1).1 earlier hmem
    obtain ⟨round, id, hr, hr', hid, hmaj⟩ := hpair hh ht hne htl hother
    exact ⟨round, id, hr, hr', hid, hmaj, (h.counted.2 later hlater).backs hmaj⟩
  rcases h.locks.lock with ⟨hround, hlock, hparts⟩ |
    ⟨hash, handle, id, hround, hlock, hparts, hmaj, hid⟩
  · exact .inl ⟨hround, Option.map_eq_none_iff.mp hlock, Option.map_eq_none_iff.mp hparts⟩
  obtain ⟨block, hblock, hhash⟩ := Option.map_eq_some_iff.mp hlock
  obtain ⟨parts, hptr, -⟩ := Option.map_eq_some_iff.mp hparts
  exact .inr ⟨block, parts, id, hround, hblock, hptr,
    hid.trans hhash.symm, hmaj, h.counted.1.backs hmaj⟩

end HetuEngine.Comet
