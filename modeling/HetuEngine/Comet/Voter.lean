/-
The voter: the consensus state machine as far as safety is concerned.

A voter has a height, round and step, a lock, the hash and the part set of
the block it holds, the votes it has seen and those it has signed. Its moves
are what the functions of the source do between them, each under the source's
condition; which message or timeout makes it move is left open, up to what
the safety of the move depends on (`Cause`). The state machine refines this
(`Comet/Proofs/Refines.lean`), so every invariant is proved here, of moves.
-/
import HetuEngine.Comet.Proofs.Votes
import HetuEngine.Comet.State
import Mathlib.Data.Prod.Lex

namespace HetuEngine.Comet

open Lib

/-- The block that is committed and its parts are those of the majority. -/
def FinalizeCall.agrees (call : FinalizeCall) : Bool :=
  match call.commit with
  | none => false
  | some blockID => hashesTo call.block blockID.hash && call.parts = some blockID.partSetHeader

def Panic.finalizes : Panic → Bool
  | .finalizeMajority | .finalizeHeader | .finalizeHash => true
  | _ => false

structure Voter where
  pubKey : Option Bytes
  lastBlockHeight : Int
  height : Int
  round : Int
  step : Step
  /-- the hash of the proposal block -/
  block : Option Bytes
  /-- identity and header of its part set -/
  parts : Option (Nat × PartSetHeader)
  lockedRound : Int
  locked : Option Bytes
  lockedParts : Option (Nat × PartSetHeader)
  votes : HeightVoteSet
  commitRound : Int
  scheduled : List TimeoutInfo
  signed : List Signed
  finalizing : List FinalizeCall
  panicked : Option Panic

structure Cause where
  /-- the votes that may be added -/
  vote : Vote → Prop
  /-- the blocks that may be decoded from a part set with this header -/
  block : PartSetHeader → Block → Prop
  /-- the rounds to which +2/3 votes may lead -/
  skip : Int → Prop
  /-- the block ids that +2/3 prevotes of the current round may be for -/
  valid : BlockID → Prop
  /-- the chain id and the validators that a next height may have -/
  next : Int → String → ValidatorSet → Prop
  /-- the keys that the private validator may have -/
  key : Bytes → Prop

abbrev HRS := Int ×ₗ Int ×ₗ Nat

/-- The header of a part set that may be nil. -/
def headerAt (parts : Option (Nat × PartSetHeader)) : PartSetHeader := parts.elim ⟨0, []⟩ Prod.snd

namespace Voter

variable (n : Voter)

def hrs : HRS := toLex (n.height, toLex (n.round, n.step.num))

def polka (round : Int) : Option BlockID := VoteSet.twoThirdsMajority (n.votes.prevotes round)

def decision (round : Int) : Option BlockID := VoteSet.twoThirdsMajority (n.votes.precommits round)

def unlock : Voter := { n with lockedRound := -1, locked := none, lockedParts := none }

def emit (out : Option (Bytes × Vote)) : Voter :=
  { n with signed := (out.map fun kv => ⟨kv.1, kv.2, n.votes⟩).toList ++ n.signed }

/-- A vote of this voter, now, for this block id; or none at all. -/
def Casts (type : SignedMsgType) (id : BlockID) (out : Option (Bytes × Vote)) : Prop :=
  ∀ key v, out = some (key, v) → n.pubKey = some key ∧ v.type = type
    ∧ v.height = n.height ∧ v.round = n.round ∧ v.blockID = id

/-- What a voter may prevote: its lock, else nothing or the proposal. -/
inductive Prevotes : BlockID → Prop
  | locked {h : Bytes} (hl : n.locked = some h) : Prevotes ⟨h, headerAt n.lockedParts⟩
  | nil (hl : n.locked = none) : Prevotes BlockID.zero
  | proposal {h : Bytes} (hl : n.locked = none) (hb : n.block = some h)
      (hh : h ≠ []) : Prevotes ⟨h, headerAt n.parts⟩

/-- What a voter may precommit: nothing, or a block with a polka in this
round on which it is locked. -/
inductive Precommits : BlockID → Prop
  | nil : Precommits BlockID.zero
  | locked {id : BlockID} (hp : n.polka n.round = some id) (hh : id.hash ≠ [])
      (hl : n.locked = some id.hash) (hr : n.lockedRound = n.round) : Precommits id

/-- The proposal block and its parts when the commit step is entered. -/
inductive Commits (id : BlockID) :
    Option Bytes → Option (Nat × PartSetHeader) → Prop
  | locked (hl : n.locked = some id.hash) : Commits id n.locked n.lockedParts
  | proposal (hb : n.block = some id.hash) : Commits id n.block n.parts
  | waiting {p : Nat × PartSetHeader} (hp : n.parts = some p)
      (hh : p.2 = id.partSetHeader) : Commits id n.block n.parts
  | fetch (i : Nat) : Commits id none (some (i, id.partSetHeader))

inductive Move (c : Crypto) (k : Cause) : Voter → Prop
  | schedule (ti : TimeoutInfo) (hh : ti.height = n.height)
      (hr : ti.round ≤ n.round) (hs : ti.step < Step.commit) :
      Move c k { n with scheduled := ti :: n.scheduled }
  | newRound (round : Int) (hr : n.round < round ∨ (n.round = round ∧ n.step = .newHeight))
      (hc : n.step = .commit → k.skip round) : Move c k { n with
        round := round
        step := .newRound
        block := if round ≠ 0 then none else n.block
        parts := if round ≠ 0 then none else n.parts }
  | votes {hvs : HeightVoteSet} (hg : n.votes.Grows c k.vote hvs) : Move c k { n with votes := hvs }
  | advance (step : Step) (hs : n.step < step) (h : step = .propose ∨ step = .prevoteWait) :
      Move c k { n with step := step }
  | prevote {id : BlockID} {out : Option (Bytes × Vote)}
      (hs : n.step < Step.prevote) (hid : n.Prevotes id) (ho : n.Casts .prevote id out) :
      Move c k { n.emit out with step := .prevote }
  | unlock {round : Int} {id : BlockID} (hp : n.polka round = some id) (hr : round ≤ n.round)
      (hl : n.lockedRound < round ∨ (round = n.round ∧ n.step < Step.precommit))
      (hne : n.locked ≠ some id.hash) : Move c k n.unlock
  | relock {id : BlockID} (hs : n.step < Step.precommit)
      (hp : n.polka n.round = some id) (hl : n.locked = some id.hash) :
      Move c k { n with lockedRound := n.round }
  | lock {id : BlockID} (hs : n.step < Step.precommit)
      (hp : n.polka n.round = some id) (hh : id.hash ≠ [])
      (hl : n.locked ≠ some id.hash) (hb : n.block = some id.hash) :
      Move c k { n with lockedRound := n.round, locked := n.block, lockedParts := n.parts }
  | fetch {id : BlockID} (i : Nat) (hs : n.step < Step.precommit) (hp : n.polka n.round = some id) :
      Move c k { n with block := none, parts := some (i, id.partSetHeader) }
  | precommit {id : BlockID} {out : Option (Bytes × Vote)}
      (hs : n.step < Step.precommit) (hid : n.Precommits id) (ho : n.Casts .precommit id out) :
      Move c k { n.emit out with step := .precommit }
  | valid {id : BlockID} {block : Option Bytes}
      {parts : Option (Nat × PartSetHeader)} (hv : k.valid id)
      (hp : n.polka n.round = some id) (hh : id.hash ≠ [])
      (hb : block = none ∨ (block = n.block ∧ n.block = some id.hash))
      (hps : parts = n.parts ∨ ∃ i, parts = some (i, id.partSetHeader)
        ∧ ∀ p, n.parts = some p → p.2 ≠ id.partSetHeader)
      (hsome : parts.isSome) :
      Move c k { n with block := block, parts := parts }
  | block {p : Nat × PartSetHeader} {b : Block} (hp : n.parts = some p)
      (hb : k.block p.2 b) : Move c k { n with block := some b.hash }
  | parts (p : Nat × PartSetHeader) (hp : n.parts = none) : Move c k { n with parts := some p }
  | commit {round : Int} {id : BlockID} {block : Option Bytes}
      {parts : Option (Nat × PartSetHeader)} (hs : n.step < Step.commit)
      (hr : 0 ≤ round) (hd : n.decision round = some id)
      (hh : id.hash ≠ []) (hb : n.Commits id block parts) :
      Move c k { n with block := block, parts := parts, step := .commit, commitRound := round }
  | finalize {id : BlockID} {call : FinalizeCall} (hs : n.step = .commit)
      (hd : n.decision n.commitRound = some id) (hh : id.hash ≠ [])
      (hb : n.block = some id.hash) (hheight : call.height = n.height)
      (hcommit : call.commit = some id) (hblock : call.block.map Block.hash = n.block)
      (hparts : call.parts = n.parts.map Prod.snd) :
      Move c k { n with finalizing := call :: n.finalizing }
  | nextHeight (chainID : String) (vals : ValidatorSet) (ext : Bool)
      (key : Option Bytes) (hs : n.step = .commit) (hn : k.next (n.height + 1) chainID vals)
      (hkey : key = n.pubKey ∨ ∃ p, key = some p ∧ k.key p) : Move c k
        { pubKey := key
          lastBlockHeight := n.height
          height := n.height + 1
          round := 0
          step := .newHeight
          block := none
          parts := none
          lockedRound := -1
          locked := none
          lockedParts := none
          votes := HeightVoteSet.new chainID (n.height + 1) vals ext
          commitRound := -1
          scheduled := ⟨n.height + 1, 0, .newHeight⟩ :: n.scheduled
          signed := n.signed
          finalizing := n.finalizing
          panicked := n.panicked }
  | abort (p : Panic) (h : p.finalizes = true →
      ∃ call ∈ n.finalizing, call.agrees = false) :
      Move c k { n with panicked := some p }

variable {n} {n' : Voter} {c : Crypto} {k : Cause}

-- ==== the order

lemma hrs_le_iff :
    n.hrs ≤ n'.hrs
      ↔ n.height < n'.height
        ∨ (n.height = n'.height
          ∧ (n.round < n'.round
            ∨ (n.round = n'.round ∧ n.step.num ≤ n'.step.num))) := by
  unfold hrs
  rw [Prod.Lex.toLex_le_toLex, Prod.Lex.toLex_le_toLex]

lemma height_le_of_hrs (h : n.hrs ≤ n'.hrs) : n.height ≤ n'.height := by
  rcases hrs_le_iff.mp h with hlt | ⟨heq, -⟩
  · exact hlt.le
  exact heq.le

lemma hrs_le_of_step (hh : n'.height = n.height) (hr : n'.round = n.round)
    (hs : n.step.num ≤ n'.step.num) : n.hrs ≤ n'.hrs :=
  hrs_le_iff.mpr (.inr ⟨hh.symm, .inr ⟨hr.symm, hs⟩⟩)

section

variable (h : n.Move c k n')

include h

lemma Move.hrs_le : n.hrs ≤ n'.hrs := by
  cases h with
  | newRound round hr hc =>
    refine hrs_le_iff.mpr (.inr ⟨rfl, ?_⟩)
    rcases hr with hlt | ⟨heq, hstep⟩
    · exact .inl hlt
    refine .inr ⟨heq, ?_⟩
    show n.step.num ≤ Step.newRound.num
    rw [hstep]
    decide
  | advance step hs h | prevote hs hid ho | precommit hs hid ho
  | commit hs hr hd hh hb => exact hrs_le_of_step rfl rfl (Nat.le_of_lt hs)
  | nextHeight chainID vals ext key hs hn hkey => exact hrs_le_iff.mpr (.inl (Int.lt_succ _))
  | _ => exact hrs_le_of_step rfl rfl (Nat.le_refl _)

lemma Move.height_cases :
    n'.height = n.height
      ∨ (n.step = .commit ∧ n'.height = n.height + 1 ∧ n'.step = .newHeight
        ∧ ∃ chainID vals ext, n'.votes = HeightVoteSet.new chainID
          (n.height + 1) vals ext
          ∧ k.next (n.height + 1) chainID vals) := by
  cases h with
  | nextHeight chainID vals ext key hs hn hkey =>
    exact .inr ⟨hs, rfl, rfl, chainID, vals, ext, rfl, hn⟩
  | _ => exact .inl rfl

lemma Move.pubKey_cases :
    n'.pubKey = n.pubKey ∨ ∃ p, n'.pubKey = some p ∧ k.key p := by
  cases h with
  | nextHeight chainID vals ext key hs hn hkey => exact hkey
  | _ => exact .inl rfl

/-- A call of `finalizeCommit`: the block has the hash of +2/3
precommits. -/
lemma Move.finalizing_cases :
    n'.finalizing = n.finalizing ∨ ∃ call id,
    n'.finalizing = call :: n.finalizing
      ∧ n.decision n.commitRound = some id ∧ id.hash ≠ []
      ∧ n.block = some id.hash ∧ call.height = n.height
      ∧ call.commit = some id ∧ call.block.map Block.hash = n.block
      ∧ call.parts = n.parts.map Prod.snd := by
  cases h with
  | finalize hs hd hh hb hheight hcommit hblock hparts =>
    exact .inr ⟨_, _, rfl, hd, hh, hb, hheight, hcommit, hblock, hparts⟩
  | _ => exact .inl rfl

lemma Move.commit_cases (hstep : n'.step = .commit) :
    n.step = .commit ∨ ∃ round id, n.decision round = some id := by
  cases h with
  | commit hs hr hd hh hb => exact .inr ⟨_, _, hd⟩
  | advance step hs h =>
    rcases h with rfl | rfl
    · cases hstep
    cases hstep
  | newRound round hr hc => cases hstep
  | prevote hs hid ho => cases hstep
  | precommit hs hid ho => cases hstep
  | nextHeight chainID vals ext key hs hn hkey => cases hstep
  | _ => exact .inl hstep

end

/-- A vote is signed: what it says, and why it may be said. -/
structure Signs (n n' : Voter) (key : Bytes) (v : Vote) : Prop where
  pubKey : n.pubKey = some key
  height : v.height = n.height
  round : v.round = n.round
  move : n' = { n.emit (some (key, v)) with step := n'.step }
  phase : (v.type = .prevote ∧ n.step < Step.prevote ∧ n'.step = .prevote ∧ n.Prevotes v.blockID)
    ∨ (v.type = .precommit ∧ n.step < Step.precommit ∧ n'.step = .precommit
      ∧ n.Precommits v.blockID)

lemma Move.signed_cases (h : n.Move c k n') :
    n'.signed = n.signed ∨ ∃ key v, n.Signs n' key v := by
  cases h with
  | @prevote _ out hs hid ho =>
    cases out with
    | none => exact .inl rfl
    | some kv =>
      obtain ⟨hkey, htype, hheight, hround, rfl⟩ := ho kv.1 kv.2 rfl
      exact .inr ⟨kv.1, kv.2, hkey, hheight, hround, rfl, .inl ⟨htype, hs, rfl, hid⟩⟩
  | @precommit _ out hs hid ho =>
    cases out with
    | none => exact .inl rfl
    | some kv =>
      obtain ⟨hkey, htype, hheight, hround, rfl⟩ := ho kv.1 kv.2 rfl
      exact .inr ⟨kv.1, kv.2, hkey, hheight, hround, rfl, .inr ⟨htype, hs, rfl, hid⟩⟩
  | _ => exact .inl rfl

lemma Move.votes_eq_or_grows (h : n.Move c k n') :
    n.height < n'.height ∨ n'.votes = n.votes
      ∨ n.votes.Grows c k.vote n'.votes := by
  cases h with
  | votes hg => exact .inr (.inr hg)
  | nextHeight chainID vals ext key hs hn hkey => exact .inl (Int.lt_succ _)
  | _ => exact .inr (.inl rfl)

variable {id : BlockID}

variable {type : SignedMsgType}

lemma Move.majority (h : n.Move c k n') (hheight : n'.height = n.height) {round : Int}
    (hid : VoteSet.twoThirdsMajority (n.votes.getVoteSet round type) = some id) :
    VoteSet.twoThirdsMajority (n'.votes.getVoteSet round type) = some id := by
  rcases h.votes_eq_or_grows with hlt | heq | hg
  · omega
  · rw [heq]
    exact hid
  exact hg.majority hid

-- ==== well-formed

/-- What holds of every voter, whatever it is sent. -/
structure Sane (n : Voter) : Prop where
  height : n.lastBlockHeight < n.height ∧ 0 < n.height
  round : 0 ≤ n.round
  commitRound : n.step = .commit → 0 ≤ n.commitRound
  scheduled : ∀ ti ∈ n.scheduled, ti.step < Step.commit
    ∧ ti.height ≤ n.height ∧ (ti.height = n.height → ti.round ≤ n.round)
  block : ∀ h, n.block = some h → validateHash h = true
  locked : ∀ h, n.locked = some h → h.length = tmhashSize
  parts : n.block.isSome → n.parts.isSome
  lockedParts : n.locked.isSome → n.lockedParts.isSome
  commitParts : n.step = .commit → n.parts.isSome
  votes : n.votes.height = n.height
  signed : ∀ e ∈ n.signed, 0 ≤ e.vote.round ∧ e.vote.blockID.sized

lemma length_of_validateHash {h : Bytes} (hv : validateHash h = true)
    (hne : h ≠ []) : h.length = tmhashSize := by
  have hpos : 0 < h.length := List.length_pos_iff.mpr hne
  unfold validateHash at hv
  simpa [hpos] using hv

lemma Sane.prevotes (h : n.Sane) (hid : n.Prevotes id) : id.sized := by
  cases hid with
  | locked hl => exact .inr (h.locked _ hl)
  | nil hl => exact .inl rfl
  | proposal hl hb hh => exact .inr (length_of_validateHash (h.block _ hb) hh)

lemma Sane.precommits (h : n.Sane) (hid : n.Precommits id) : id.sized := by
  cases hid with
  | nil => exact .inl rfl
  | locked hp hh hl hr => exact .inr (h.locked _ hl)

lemma Sane.commits (h : n.Sane) {block : Option Bytes}
    {parts : Option (Nat × PartSetHeader)} (hc : n.Commits id block parts) :
    parts.isSome ∧ ∀ x, block = some x → validateHash x = true := by
  cases hc with
  | locked hl =>
    refine ⟨h.lockedParts (by rw [hl]; rfl), fun x hx => ?_⟩
    unfold validateHash
    simp [h.locked x hx]
  | proposal hb => exact ⟨h.parts (by rw [hb]; rfl), h.block⟩
  | waiting hp hh => exact ⟨by rw [hp]; rfl, h.block⟩
  | fetch i => exact ⟨rfl, fun x hx => by cases hx⟩

lemma Sane.emit (h : n.Sane) {out : Option (Bytes × Vote)} (hid : id.sized)
    (ho : n.Casts type id out) : (n.emit out).Sane := by
  cases out with
  | none => exact h
  | some kv =>
    obtain ⟨key, v⟩ := kv
    obtain ⟨-, -, -, hround, hblock⟩ := ho key v rfl
    refine { h with signed := fun e he => ?_ }
    rcases List.mem_cons.mp he with rfl | he
    · exact ⟨hround ▸ h.round, hblock ▸ hid⟩
    exact h.signed e he

lemma Move.sane (h : n.Move c k n') (hs : n.Sane) : n'.Sane := by
  cases h with
  | schedule ti hh hr hstep =>
    refine { hs with scheduled := fun ti' hti => ?_ }
    rcases List.mem_cons.mp hti with rfl | hti
    · exact ⟨hstep, hh.le, fun _ => hr⟩
    exact hs.scheduled ti' hti
  | newRound round hr hc =>
    have hle : n.round ≤ round := by
      rcases hr with hlt | ⟨heq, -⟩
      · exact hlt.le
      exact heq.le
    refine { hs with
      round := hs.round.trans hle
      commitRound := fun hstep => by cases hstep
      scheduled := fun ti hti => ?_
      block := fun h hb => ?_
      parts := fun hb => ?_
      commitParts := fun hstep => by cases hstep }
    · obtain ⟨hstep, hheight, hround⟩ := hs.scheduled ti hti
      exact ⟨hstep, hheight, fun heq => (hround heq).trans hle⟩
    · dsimp only at hb
      split at hb
      · cases hb
      exact hs.block h hb
    dsimp only at hb ⊢
    split at hb
    · cases hb
    next hzero =>
    rw [if_neg hzero]
    exact hs.parts hb
  | votes hg =>
    have hheight := congrArg (fun f => f.2.1) hg.frame
    exact { hs with votes := hheight.trans hs.votes }
  | advance step hstep h =>
    have hne : step ≠ .commit := by
      rcases h with rfl | rfl
      · decide
      decide
    exact { hs with
      commitRound := fun heq => absurd heq hne
      commitParts := fun heq => absurd heq hne }
  | prevote hstep hid ho =>
    exact { hs.emit (hs.prevotes hid) ho with
      commitRound := fun heq => by cases heq
      commitParts := fun heq => by cases heq }
  | unlock hp hr hl hne =>
    exact { hs with
      locked := fun h heq => by cases heq
      lockedParts := fun heq => by cases heq }
  | relock hstep hp hl => exact { hs with }
  | lock hstep hp hh hl hb =>
    refine { hs with locked := fun h heq => ?_, lockedParts := hs.parts }
    obtain rfl := Option.some.inj (hb.symm.trans heq)
    exact length_of_validateHash (hs.block _ hb) hh
  | fetch i hstep hp =>
    exact { hs with
      block := fun h heq => by cases heq
      parts := fun _ => rfl
      commitParts := fun _ => rfl }
  | precommit hstep hid ho =>
    exact { hs.emit (hs.precommits hid) ho with
      commitRound := fun heq => by cases heq
      commitParts := fun heq => by cases heq }
  | valid hv hp hh hb hps hsome =>
    refine { hs with
      block := fun h heq => ?_
      parts := fun _ => hsome
      commitParts := fun _ => hsome }
    rcases hb with rfl | ⟨rfl, -⟩
    · cases heq
    exact hs.block h heq
  | @block p b hp hb =>
    refine { hs with
      block := fun h heq => ?_
      parts := fun _ => by dsimp only; rw [hp]; rfl }
    cases heq
    exact b.hash_size
  | parts p hp => exact { hs with parts := fun _ => rfl, commitParts := fun _ => rfl }
  | commit hstep hr hd hh hb =>
    obtain ⟨hsome, hhash⟩ := hs.commits hb
    exact { hs with
      commitRound := fun _ => hr
      block := hhash
      parts := fun _ => hsome
      commitParts := fun _ => hsome }
  | finalize hstep hd hh hb hheight hcommit hblock hparts => exact { hs with }
  | nextHeight chainID vals ext key hstep hn hkey =>
    have hpos := hs.height.2
    refine
      { height := ⟨Int.lt_succ _, by dsimp only; omega⟩
        round := le_refl _
        commitRound := fun heq => by cases heq
        scheduled := fun ti hti => ?_
        block := fun h heq => by cases heq
        locked := fun h heq => by cases heq
        parts := fun heq => by cases heq
        lockedParts := fun heq => by cases heq
        commitParts := fun heq => by cases heq
        votes := rfl
        signed := hs.signed }
    rcases List.mem_cons.mp hti with rfl | hti
    · have hlt : Step.newHeight < Step.commit := by decide
      exact ⟨hlt, le_refl _, fun _ => le_refl _⟩
    obtain ⟨hstep', hheight, -⟩ := hs.scheduled ti hti
    refine ⟨hstep', by dsimp only; omega, fun heq => ?_⟩
    dsimp only at heq
    omega
  | abort p h => exact { hs with }

end Voter

end HetuEngine.Comet
