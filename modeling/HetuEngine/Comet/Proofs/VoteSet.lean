/-
What a vote set keeps consistent over any sequence of `AddVote` and
`SetPeerMaj23` calls.

`votes` has one vote for each validator that was seen, `votesByBlock` the
votes that are tracked for each block. The sum and the bit array follow
`votes`, the sums of blocks follow their votes, and the first block to reach
the quorum is the majority (`Consistent`). The documentation of `VoteSet`
adds that every vote in `votes` is in `votesByBlock` too.

# The stray vote

One call breaks this: after the majority is found, a validator whose vote is
for another block votes for the majority's. `addVerifiedVote` puts the vote
into `votes` and only then looks whether the block is tracked for conflicting
votes; where no peer has claimed it, it is not, and the call returns that
nothing was added (`strays`). A run is consistent exactly when it has no such
call.
-/
import HetuEngine.Comet.Proofs.Votes
import HetuEngine.Lib.Along
import Mathlib.Data.List.GetD

namespace HetuEngine.Comet

open Lib List Option VoteSet BlockVotes

-- ==== voted power

def powerOfVotes (vals : List Validator) (votes : List (Option Vote)) : Int :=
  (List.zipWith (fun val vote => if vote.isSome then val.votingPower else 0)
    vals votes).sum

section Power

variable {vals : List Validator} {votes votes' : List (Option Vote)}

lemma powerOfVotes_congr (h : votes.map isSome = votes'.map isSome) :
    powerOfVotes vals votes = powerOfVotes vals votes' := by
  have hmap : ∀ l : List (Option Vote), powerOfVotes vals l
      = (zipWith (fun val b => if b = true then val.votingPower else 0)
          vals (l.map isSome)).sum := by
    intro l
    unfold powerOfVotes
    rw [zipWith_map_right]
  rw [hmap, hmap, h]

lemma powerOfVotes_none (n : Nat) :
    powerOfVotes vals (replicate n none) = 0 := by
  induction vals generalizing n with
  | nil => rfl
  | cons val vals ih =>
    cases n with
    | zero => rfl
    | succ n =>
      show 0 + powerOfVotes vals (replicate n none) = 0
      rw [ih, Int.add_zero]

lemma powerOfVotes_set {i : Nat} {val : Validator} {v : Vote}
    (hval : vals[i]? = some val) (hvote : votes[i]? = some none) :
    powerOfVotes vals (votes.set i (some v))
      = powerOfVotes vals votes + val.votingPower := by
  induction vals generalizing votes i with
  | nil => cases hval
  | cons val' vals ih =>
    cases votes with
    | nil => cases hvote
    | cons vote votes =>
      cases i with
      | zero =>
        cases hval
        cases hvote
        show val.votingPower + powerOfVotes vals votes
          = 0 + powerOfVotes vals votes + val.votingPower
        omega
      | succ i =>
        have := ih hval hvote
        show _ + powerOfVotes vals (votes.set i (some v))
          = _ + powerOfVotes vals votes + val.votingPower
        rw [this]
        exact (Int.add_assoc ..).symm

lemma isSome_set {i : Nat} {v existing : Vote}
    (h : votes[i]? = some (some existing)) :
    (votes.set i (some v)).map isSome = votes.map isSome := by
  obtain ⟨hi, hget⟩ := List.getElem?_eq_some_iff.mp h
  have hsame := @set_getElem_self _ (votes.map isSome) i (by rwa [length_map])
  rw [getElem_map, hget] at hsame
  rw [map_set]
  exact hsame

lemma isSome_copy (hlength : votes'.length = votes.length)
    (h : ∀ i, (votes'.getD i none).isSome → (votes.getD i none).isSome) :
    (zipWith (fun new old => new <|> old) votes' votes).map
    isSome = votes.map isSome := by
  refine ext_getElem (by simp [hlength]) fun i hi hi' => ?_
  rw [length_map] at hi'
  have hlt : i < votes'.length := hlength ▸ hi'
  have := h i
  rw [getD_eq_getElem _ _ hlt, getD_eq_getElem _ _ hi'] at this
  simp only [getElem_map, getElem_zipWith]
  cases hnew : votes'[i] with
  | none => rfl
  | some v =>
    rw [hnew] at this
    exact (this rfl).symm

end Power

-- ==== calls

inductive VoteSet.Call where
  | addVote (vote : Vote)
  | setPeerMaj23 (peerID : PeerID) (blockID : BlockID)

namespace VoteSet

def getByIndex (vs : VoteSet) (index : Nat) : Option Vote := vs.votes.getD index none

def call (c : Crypto) (vs : VoteSet) : Call → Except VotePanic (VoteSet × Option Bool)
  | .addVote vote =>
    match vs.addVote c vote with
    | .error e => .error e
    | .ok (vs', added, _) => .ok (vs', some added)
  | .setPeerMaj23 peerID blockID => .ok (vs.setPeerMaj23 peerID blockID, none)

def calls (c : Crypto) (vs : VoteSet) : List Call → Except VotePanic VoteSet
  | [] => .ok vs
  | call :: rest =>
    match vs.call c call with
    | .error e => .error e
    | .ok (vs', _) => vs'.calls c rest

/-- A valid new vote for the majority's block from a validator whose vote is
for another one, when no peer has claimed that majority. -/
def strays (c : Crypto) (vs : VoteSet) : Call → Bool
  | .addVote vote =>
    (vs.checkVote c vote).isOk && (vs.getByIndex vote.validatorIndex.toNat).isSome
      && vs.maj23.any (fun maj23 => maj23.key = vote.blockID.key)
      && !(vs.votesByBlock.lookup vote.blockID.key).any (·.peerMaj23)
  | .setPeerMaj23 _ _ => false

/-- The two stores of votes and what is counted agree. -/
structure Consistent (vs : VoteSet) : Prop where
  sum : vs.sum = powerOfVotes vs.valSet.validators vs.votes
  bits : vs.votesBitArray = vs.votes.map Option.isSome
  recorded : ∀ i v, vs.getByIndex i = some v → ∃ bv,
    vs.votesByBlock.lookup v.blockID.key = some bv ∧ bv.getByIndex i = some v
  keyed : ∀ key bv i v, vs.votesByBlock.lookup key = some bv →
    bv.getByIndex i = some v → v.blockID.key = key
  tallied : ∀ key bv, vs.votesByBlock.lookup key = some bv →
    bv.sum = powerOfVotes vs.valSet.validators bv.votes ∧ bv.bitArray = bv.votes.map Option.isSome
  reached : vs.maj23.isSome ↔ ∃ key bv, vs.votesByBlock.lookup key = some bv ∧ vs.quorum ≤ bv.sum
  majority : ∀ id, vs.maj23 = some id → ∃ bv,
    vs.votesByBlock.lookup id.key = some bv ∧ vs.quorum ≤ bv.sum

/-- What the proofs need besides: every vote for a block is of a validator
that has an entry, and there is one slot for each validator. -/
structure Shaped (vs : VoteSet) : Prop where
  votes_length : vs.votes.length = vs.valSet.size
  block_length : ∀ key bv, vs.votesByBlock.lookup key = some bv → bv.votes.length = vs.valSet.size
  seen : ∀ key bv i, vs.votesByBlock.lookup key = some bv →
    (bv.getByIndex i).isSome → (vs.getByIndex i).isSome

variable {c : Crypto} {vs vs' : VoteSet} {v : Vote}

lemma quorum_pos : 0 < vs.quorum := by
  have htotal := vs.valSet.totalVotingPower_nonneg
  unfold quorum
  omega

-- ==== what is checked

/-- A vote that passes the checks is not known yet. -/
lemma getVote_of_checkVote {val : Validator} (h : vs.checkVote c v = .ok val) :
    vs.getVote v.validatorIndex.toNat v.blockID.key = none := by
  obtain ⟨-, -, -, -, hnew, -⟩ := checkVote_inv h
  exact hnew

lemma getVote_eq_none {i : Nat} {key : Bytes} (h : vs.getVote i key = none) :
    (∀ e, vs.getByIndex i = some e → e.blockID.key ≠ key)
    ∧ ∀ bv, vs.votesByBlock.lookup key = some bv → bv.getByIndex i = none := by
  unfold getVote at h
  cases hvote : vs.votes.getD i none with
  | none =>
    rw [hvote] at h
    refine ⟨fun e he => ?_, fun bv hbv => ?_⟩
    · rw [getByIndex, hvote] at he
      cases he
    simpa [hbv] using h
  | some existing =>
    rw [hvote] at h
    dsimp only at h
    split at h
    · cases h
    next hne =>
    refine ⟨fun e he => ?_, fun bv hbv => ?_⟩
    · rw [getByIndex, hvote] at he
      obtain rfl := some.inj he
      exact hne
    simpa [hbv] using h

-- ==== a vote and its block

/-- The canonical votes after `place`: one slot may have changed, which now
has an entry, and sum and bit array follow. -/
structure Placed (vs : VoteSet) (v : Vote) (vs₁ : VoteSet) : Prop where
  valSet : vs₁.valSet = vs.valSet
  votesByBlock : vs₁.votesByBlock = vs.votesByBlock
  maj23 : vs₁.maj23 = vs.maj23
  length : vs₁.votes.length = vs.votes.length
  sum : vs₁.sum = powerOfVotes vs.valSet.validators vs₁.votes
  bits : vs₁.votesBitArray = vs₁.votes.map Option.isSome
  entry : (vs₁.getByIndex v.validatorIndex.toNat).isSome
  votes : ∀ i w, vs₁.getByIndex i = some w →
    vs.getByIndex i = some w ∨ (i = v.validatorIndex.toNat ∧ w = v)
  kept : ∀ i, (vs.getByIndex i).isSome → (vs₁.getByIndex i).isSome

def put (vs : VoteSet) (v : Vote) : VoteSet :=
  { vs with
    votes := vs.votes.set v.validatorIndex.toNat (some v)
    votesBitArray := vs.votesBitArray.set v.validatorIndex.toNat true }

lemma getByIndex_put (hlt : v.validatorIndex.toNat < vs.votes.length)
    (i : Nat) : (vs.put v).getByIndex i
    = if i = v.validatorIndex.toNat then some v else vs.getByIndex i :=
  getD_set hlt i

lemma bits_put (hbits : vs.votesBitArray = vs.votes.map isSome) :
    (vs.put v).votesBitArray = (vs.put v).votes.map isSome := by
  show vs.votesBitArray.set _ true = (vs.votes.set _ (some v)).map _
  rw [map_set, hbits]
  rfl

/-- The slot of an index in range. -/
lemma getElem?_of_getByIndex {i : Nat} {o : Option Vote}
    (hlt : i < vs.votes.length) (h : vs.getByIndex i = o) :
    vs.votes[i]? = some o := by
  unfold getByIndex at h
  rw [getD_eq_getElem _ _ hlt] at h
  rw [getElem?_eq_getElem hlt, h]

section

variable (h : vs.Consistent)

include h

section

variable (hlt : v.validatorIndex.toNat < vs.votes.length)

include hlt

lemma placed_put {s : Int}
    (hs : s = powerOfVotes vs.valSet.validators (vs.votes.set v.validatorIndex.toNat (some v))) :
    vs.Placed v { vs.put v with sum := s } where
  valSet := rfl
  votesByBlock := rfl
  maj23 := rfl
  length := length_set
  sum := hs
  bits := bits_put h.bits
  entry := by
    show ((vs.put v).getByIndex _).isSome
    rw [getByIndex_put hlt, if_pos rfl]
    rfl
  votes i w hw := by
    have hw : (vs.put v).getByIndex i = some w := hw
    rw [getByIndex_put hlt] at hw
    split at hw
    · next hi =>
      cases hw
      exact .inr ⟨hi, rfl⟩
    exact .inl hw
  kept i hi := by
    show ((vs.put v).getByIndex i).isSome
    rw [getByIndex_put hlt]
    split
    · rfl
    exact hi

lemma placed_new {val : Validator} (hval : vs.valSet.validators[v.validatorIndex.toNat]? = some val)
    (hnone : vs.getByIndex v.validatorIndex.toNat = none) :
    vs.Placed v { vs.put v with sum := vs.sum + val.votingPower } := by
  refine placed_put h hlt ?_
  rw [powerOfVotes_set hval (getElem?_of_getByIndex hlt hnone), h.sum]

lemma placed_over {existing : Vote}
    (hsome : vs.getByIndex v.validatorIndex.toNat = some existing) :
    vs.Placed v (vs.put v) := by
  refine placed_put (s := vs.sum) h hlt ?_
  rw [powerOfVotes_congr (isSome_set (getElem?_of_getByIndex hlt hsome)), h.sum]

end

lemma placed_same (hsome : (vs.getByIndex v.validatorIndex.toNat).isSome) :
    vs.Placed v vs where
  valSet := rfl
  votesByBlock := rfl
  maj23 := rfl
  length := rfl
  sum := h.sum
  bits := h.bits
  entry := hsome
  votes _ _ hw := .inl hw
  kept _ hi := hi

end

-- ---- recording

/-- The votes for a block to which a vote is added: those that are tracked,
or none so far. -/
structure Tracks (vs : VoteSet) (v : Vote) (bv : BlockVotes) : Prop where
  lookup : vs.votesByBlock.lookup v.blockID.key = some bv
    ∨ (vs.votesByBlock.lookup v.blockID.key = none ∧ bv = BlockVotes.new false vs.valSet.size)
  fresh : bv.getByIndex v.validatorIndex.toNat = none
  length : bv.votes.length = vs.valSet.size
  keyed : ∀ i w, bv.getByIndex i = some w → w.blockID.key = v.blockID.key
  seen : ∀ i, (bv.getByIndex i).isSome → (vs.getByIndex i).isSome
  sum : bv.sum = powerOfVotes vs.valSet.validators bv.votes
  bits : bv.bitArray = bv.votes.map Option.isSome
  below : vs.maj23 = none → bv.sum < vs.quorum

lemma Consistent.below (h : vs.Consistent) (hmaj : vs.maj23 = none)
    {key : Bytes} {bv : BlockVotes}
    (hbv : vs.votesByBlock.lookup key = some bv) : bv.sum < vs.quorum := by
  by_contra hle
  have := h.reached.mpr ⟨key, bv, hbv, Int.not_lt.mp hle⟩
  rw [hmaj] at this
  cases this

lemma tracks_of_lookup (h : vs.Consistent) (hs : vs.Shaped) {bv : BlockVotes}
    (hnew : vs.getVote v.validatorIndex.toNat v.blockID.key = none)
    (hbv : vs.votesByBlock.lookup v.blockID.key = some bv) :
    vs.Tracks v bv where
  lookup := .inl hbv
  fresh := (getVote_eq_none hnew).2 bv hbv
  length := hs.block_length _ bv hbv
  keyed i w hw := h.keyed _ bv i w hbv hw
  seen i hi := hs.seen _ bv i hbv hi
  sum := (h.tallied _ bv hbv).1
  bits := (h.tallied _ bv hbv).2
  below hmaj := h.below hmaj hbv

lemma tracks_of_none (hbv : vs.votesByBlock.lookup v.blockID.key = none) :
    vs.Tracks v (BlockVotes.new false vs.valSet.size) where
  lookup := .inr ⟨hbv, rfl⟩
  fresh := getByIndex_new _ _ _
  length := length_replicate
  keyed i w hw := by
    rw [getByIndex_new] at hw
    cases hw
  seen i hi := by
    rw [getByIndex_new] at hi
    cases hi
  sum := (powerOfVotes_none _).symm
  bits := by
    show replicate _ false = (replicate _ none).map isSome
    rw [map_replicate]
    rfl
  below _ := quorum_pos

section Record

variable {vs₁ vs' : VoteSet} {bv bv' : BlockVotes} {val : Validator}

lemma Tracks.added (ht : vs.Tracks v bv)
    (hval : vs.valSet.validators[v.validatorIndex.toNat]? = some val)
    (hbv' : bv.addVerifiedVote v val.votingPower = bv') :
    (∀ i, bv'.getByIndex i = if i = v.validatorIndex.toNat then some v else bv.getByIndex i)
    ∧ bv'.votes.length = vs.valSet.size
    ∧ bv'.sum = powerOfVotes vs.valSet.validators bv'.votes
    ∧ bv'.bitArray = bv'.votes.map isSome := by
  have hlt : v.validatorIndex.toNat < bv.votes.length := by
    rw [ht.length]
    exact (List.getElem?_eq_some_iff.mp hval).1
  have hslot : bv.votes[v.validatorIndex.toNat]? = some none := by
    have hfresh := ht.fresh
    unfold BlockVotes.getByIndex at hfresh
    rw [getD_eq_getElem _ _ hlt] at hfresh
    rw [getElem?_eq_getElem hlt, hfresh]
  subst hbv'
  refine ⟨getByIndex_addVerifiedVote _ hlt ht.fresh, ?_⟩
  unfold BlockVotes.addVerifiedVote
  rw [ht.fresh]
  refine ⟨length_set.trans ht.length, ?_, ?_⟩
  · show bv.sum + val.votingPower = powerOfVotes _ (bv.votes.set _ (some v))
    rw [powerOfVotes_set hval hslot, ht.sum]
  show bv.bitArray.set _ true = (bv.votes.set _ (some v)).map _
  rw [map_set, ht.bits]
  rfl

variable (hp : vs.Placed v vs₁) (ht : vs.Tracks v bv) (hs : vs.Shaped)
  (hval : vs.valSet.validators[v.validatorIndex.toNat]? = some val)
  (hbv' : bv.addVerifiedVote v val.votingPower = bv')
  (hvs' : vs₁.record v v.blockID.key val.votingPower bv = vs')

include hp hvs' in
lemma valSet_recorded : vs'.valSet = vs.valSet := by
  rw [← hvs', frame_valSet record_frame]
  exact hp.valSet

include hp hbv' hvs'

lemma lookup_recorded (key : Bytes) : vs'.votesByBlock.lookup key
    = if key = v.blockID.key then some bv' else vs.votesByBlock.lookup key := by
  rw [← hvs', record_lookup, hbv', hp.votesByBlock]

include ht hs hval

lemma isSome_record : vs'.votes.map isSome = vs₁.votes.map isSome := by
  obtain ⟨hget, hlength, -, -⟩ := ht.added hval hbv'
  subst hvs' hbv'
  unfold record
  dsimp only
  split
  · refine isSome_copy ?_ fun i hi => ?_
    · rw [hlength, hp.length, hs.votes_length]
    have hi : ((bv.addVerifiedVote v val.votingPower).getByIndex i).isSome := hi
    rw [hget] at hi
    split at hi
    · next heq =>
      subst heq
      exact hp.entry
    exact hp.kept i (ht.seen i hi)
  rfl

/-- The votes after recording: those of the block where they are copied,
otherwise what was there. -/
lemma getByIndex_recorded (i : Nat) : vs'.getByIndex i = vs₁.getByIndex i
    ∨ vs'.getByIndex i = (bv'.getByIndex i <|> vs₁.getByIndex i) := by
  obtain ⟨-, hlength, -, -⟩ := ht.added hval hbv'
  rw [← hs.votes_length, ← hp.length] at hlength
  subst hvs' hbv'
  unfold record
  dsimp only
  split
  · refine .inr ?_
    unfold getByIndex BlockVotes.getByIndex
    by_cases hi : i < vs₁.votes.length
    · rw [getD_eq_getElem _ _ (by simp [hlength, hi]),
        getD_eq_getElem _ _ (hlength ▸ hi), getD_eq_getElem _ _ hi,
        getElem_zipWith]
    rw [getD_eq_default _ _ (by simp [hlength]; omega), getD_eq_default _ _ (by omega),
      getD_eq_default _ _ (by omega)]
    rfl
  exact .inl rfl

lemma shaped_record : vs'.Shaped := by
  obtain ⟨hget, hlength, -, -⟩ := ht.added hval hbv'
  have hsome := isSome_record hp ht hs hval hbv' hvs'
  have hvals := valSet_recorded hp hvs'
  have hlookup := lookup_recorded hp hbv' hvs'
  have hentry : ∀ i, (vs₁.getByIndex i).isSome → (vs'.getByIndex i).isSome := by
    intro i hi
    rcases getByIndex_recorded hp ht hs hval hbv' hvs' i with heq | heq
    · rw [heq]
      exact hi
    rw [heq]
    cases bv'.getByIndex i with
    | none => exact hi
    | some w => rfl
  refine ⟨?_, fun key b hb => ?_, fun key b i hb hi => ?_⟩
  · rw [hvals, ← hs.votes_length, ← hp.length]
    have := congrArg length hsome
    rwa [length_map, length_map] at this
  · rw [hlookup] at hb
    rw [hvals]
    split at hb
    · cases hb
      exact hlength
    exact hs.block_length key b hb
  rw [hlookup] at hb
  split at hb
  · cases hb
    rw [hget] at hi
    split at hi
    · next heq =>
      subst heq
      exact hentry _ hp.entry
    exact hentry i (hp.kept i (ht.seen i hi))
  exact hentry i (hp.kept i (hs.seen key b i hb hi))

lemma recorded_record (h : vs.Consistent) {i : Nat} {w : Vote}
    (hw : vs'.getByIndex i = some w) :
    ∃ b, vs'.votesByBlock.lookup w.blockID.key = some b
      ∧ b.getByIndex i = some w := by
  obtain ⟨hget, -, -, -⟩ := ht.added hval hbv'
  have hlookup := lookup_recorded hp hbv' hvs'
  have hadded : ∀ w, bv'.getByIndex i = some w → w.blockID.key = v.blockID.key := by
    intro w hw
    rw [hget] at hw
    split at hw
    · cases hw
      rfl
    exact ht.keyed i w hw
  -- what was canonical before is recorded before, or is the new vote
  have hplaced : ∀ w, vs₁.getByIndex i = some w → ∃ b,
      vs'.votesByBlock.lookup w.blockID.key = some b ∧ b.getByIndex i = some w := by
    intro w hw
    rw [hlookup]
    rcases hp.votes i w hw with hold | ⟨rfl, rfl⟩
    · obtain ⟨b, hb, hw'⟩ := h.recorded i w hold
      by_cases hkey : w.blockID.key = v.blockID.key
      · rw [if_pos hkey]
        refine ⟨_, rfl, ?_⟩
        rw [hkey] at hb
        have hsame : bv = b := by
          rcases ht.lookup with hlookup | ⟨hlookup, -⟩
          · exact some.inj (hlookup.symm.trans hb)
          rw [hlookup] at hb
          cases hb
        subst hsame
        rw [hget, if_neg ?_, hw']
        rintro rfl
        rw [ht.fresh] at hw'
        cases hw'
      rw [if_neg hkey]
      exact ⟨b, hb, hw'⟩
    rw [if_pos rfl]
    exact ⟨_, rfl, by rw [hget, if_pos rfl]⟩
  rcases getByIndex_recorded hp ht hs hval hbv' hvs' i with heq | heq
  · rw [heq] at hw
    exact hplaced w hw
  rw [heq] at hw
  cases hnew : bv'.getByIndex i with
  | none =>
    rw [hnew] at hw
    exact hplaced w hw
  | some w' =>
    rw [hnew] at hw
    obtain rfl := some.inj hw
    rw [hlookup, if_pos (hadded _ hnew)]
    exact ⟨_, rfl, hnew⟩

omit hs in
lemma reached_record (h : vs.Consistent) :
    (vs'.maj23.isSome
      ↔ ∃ key b, vs'.votesByBlock.lookup key = some b ∧ vs.quorum ≤ b.sum)
      ∧ ∀ id, vs'.maj23 = some id →
        ∃ b, vs'.votesByBlock.lookup id.key = some b ∧ vs.quorum ≤ b.sum := by
  have hlookup := lookup_recorded hp hbv' hvs'
  have hquorum : vs₁.quorum = vs.quorum := by
    unfold quorum
    rw [hp.valSet]
  have hrec := record_maj23 vs₁ v v.blockID.key val.votingPower bv
  rw [hvs', hbv', hquorum, hp.maj23] at hrec
  have hpos := vs.valSet.power_pos val (mem_of_getElem? hval)
  have hgrow : bv.sum ≤ bv'.sum := hbv' ▸ (BlockVotes.Extends.addVerifiedVote hpos.le).sum
  -- an entry that has reached the quorum keeps it
  have hkeep : ∀ key b, vs.votesByBlock.lookup key = some b → vs.quorum ≤ b.sum →
      ∃ b', vs'.votesByBlock.lookup key = some b' ∧ vs.quorum ≤ b'.sum := by
    intro key b hb hle
    rw [hlookup]
    by_cases hkey : key = v.blockID.key
    · subst hkey
      refine ⟨_, if_pos rfl, ?_⟩
      rcases ht.lookup with hold | ⟨hold, -⟩
      · obtain rfl := some.inj (hold.symm.trans hb)
        exact hle.trans hgrow
      rw [hold] at hb
      cases hb
    rw [if_neg hkey]
    exact ⟨b, hb, hle⟩
  have hmajority : ∀ id, vs'.maj23 = some id →
      ∃ b, vs'.votesByBlock.lookup id.key = some b ∧ vs.quorum ≤ b.sum := by
    intro id hid
    rcases hrec with hsame | ⟨-, hsome, -, hle⟩
    · obtain ⟨b, hb, hle⟩ := h.majority id (hsame.symm.trans hid)
      exact hkeep _ b hb hle
    obtain rfl := some.inj (hsome.symm.trans hid)
    exact ⟨_, (hlookup _).trans (if_pos rfl), hle⟩
  refine ⟨⟨fun hsome => ?_, fun hex => ?_⟩, hmajority⟩
  · obtain ⟨id, hid⟩ := isSome_iff_exists.mp hsome
    obtain ⟨b, hb, hle⟩ := hmajority id hid
    exact ⟨_, b, hb, hle⟩
  obtain ⟨key, b, hb, hle⟩ := hex
  rcases hrec with hsame | ⟨-, hsome, -, -⟩
  · -- without a new majority, no block has just reached the quorum
    rw [hsame]
    cases hmaj : vs.maj23 with
    | some id => rfl
    | none =>
      exfalso
      rw [hlookup] at hb
      split at hb
      · cases hb
        have hreached : vs'.maj23 = some v.blockID := by
          rw [← hvs']
          unfold record
          rw [hbv', hquorum, if_pos ⟨ht.below hmaj, hle, hp.maj23.trans hmaj⟩]
        rw [hsame, hmaj] at hreached
        cases hreached
      exact absurd hle (Int.not_le.mpr (h.below hmaj hb))
  rw [hsome]
  rfl

lemma consistent_record (h : vs.Consistent) : vs'.Consistent := by
  obtain ⟨hget, -, hsum, hbits⟩ := ht.added hval hbv'
  have hsome := isSome_record hp ht hs hval hbv' hvs'
  have hvals := valSet_recorded hp hvs'
  have hlookup := lookup_recorded hp hbv' hvs'
  have hquorum : vs'.quorum = vs.quorum := by
    unfold quorum
    rw [hvals]
  have hrest : vs'.sum = vs₁.sum ∧ vs'.votesBitArray = vs₁.votesBitArray := by
    rw [← hvs']
    unfold record
    dsimp only
    split
    all_goals exact ⟨rfl, rfl⟩
  obtain ⟨hreached, hmajority⟩ := reached_record hp ht hval hbv' hvs' h
  refine ⟨?_, ?_, fun i w hw => recorded_record hp ht hs hval hbv' hvs' h hw,
    fun key b i w hb hw => ?_, fun key b hb => ?_, ?_, ?_⟩
  · rw [hrest.1, hp.sum, hvals, powerOfVotes_congr hsome]
  · rw [hrest.2, hp.bits, hsome]
  · rw [hlookup] at hb
    split at hb
    · next hkey =>
      cases hb
      rw [hget] at hw
      split at hw
      · cases hw
        exact hkey.symm
      exact (ht.keyed i w hw).trans hkey.symm
    exact h.keyed key b i w hb hw
  · rw [hlookup] at hb
    rw [hvals]
    split at hb
    · cases hb
      exact ⟨hsum, hbits⟩
    exact h.tallied key b hb
  · rw [hquorum]
    exact hreached
  rw [hquorum]
  exact hmajority

end Record

-- ---- claims of peers

/-- A claim changes neither the canonical votes nor their sum. -/
lemma setPeerMaj23_rest (peerID : PeerID) (blockID : BlockID) :
    (vs.setPeerMaj23 peerID blockID).votes = vs.votes
      ∧ (vs.setPeerMaj23 peerID blockID).sum = vs.sum
      ∧ (vs.setPeerMaj23 peerID blockID).votesBitArray = vs.votesBitArray
      ∧ (vs.setPeerMaj23 peerID blockID).extensionsEnabled
        = vs.extensionsEnabled := by
  unfold setPeerMaj23
  split
  all_goals exact ⟨rfl, rfl, rfl, rfl⟩

lemma consistent_setPeerMaj23 (h : vs.Consistent) (hs : vs.Shaped)
    (peerID : PeerID) (blockID : BlockID) :
    (vs.setPeerMaj23 peerID blockID).Consistent
      ∧ (vs.setPeerMaj23 peerID blockID).Shaped := by
  obtain ⟨hframe, hmaj, hblocks⟩ := @setPeerMaj23_spec vs peerID blockID
  obtain ⟨hvotes, hsum, hbits, -⟩ := @setPeerMaj23_rest vs peerID blockID
  generalize vs.setPeerMaj23 peerID blockID = vs' at *
  have hvals := frame_valSet hframe
  have hquorum := quorum_congr hframe
  -- an entry of the new map is an old one, or a new one without votes
  have hback : ∀ key bv', vs'.votesByBlock.lookup key = some bv' →
      (∃ bv p, vs.votesByBlock.lookup key = some bv ∧ bv' = { bv with peerMaj23 := p })
        ∨ bv' = BlockVotes.new true vs.valSet.size := by
    intro key bv' hbv'
    rcases hblocks key with hsame | ⟨bv, hbv, hset⟩ | ⟨-, hset⟩
    · exact .inl ⟨bv', _, hsame.symm.trans hbv', rfl⟩
    · exact .inl ⟨bv, _, hbv, (some.inj (hset.symm.trans hbv')).symm⟩
    exact .inr (some.inj (hset.symm.trans hbv')).symm
  have hforth : ∀ key bv, vs.votesByBlock.lookup key = some bv →
      ∃ p, vs'.votesByBlock.lookup key = some { bv with peerMaj23 := p } := by
    intro key bv hbv
    rcases hblocks key with hsame | ⟨bv', hbv', hset⟩ | ⟨hnone, -⟩
    · exact ⟨_, hsame.trans hbv⟩
    · obtain rfl := some.inj (hbv.symm.trans hbv')
      exact ⟨_, hset⟩
    rw [hnone] at hbv
    cases hbv
  have hget : ∀ i, vs'.getByIndex i = vs.getByIndex i := by
    intro i
    unfold getByIndex
    rw [hvotes]
  constructor
  · refine ⟨?_, ?_, fun i w hw => ?_, fun key bv' i w hbv' hw => ?_,
      fun key bv' hbv' => ?_, ?_, fun id hid => ?_⟩
    · rw [hsum, hvals, hvotes]
      exact h.sum
    · rw [hbits, hvotes]
      exact h.bits
    · rw [hget] at hw
      obtain ⟨bv, hbv, hw'⟩ := h.recorded i w hw
      obtain ⟨p, hbv'⟩ := hforth _ bv hbv
      exact ⟨_, hbv', hw'⟩
    · rcases hback key bv' hbv' with ⟨bv, p, hbv, rfl⟩ | rfl
      · exact h.keyed key bv i w hbv hw
      rw [getByIndex_new] at hw
      cases hw
    · rw [hvals]
      rcases hback key bv' hbv' with ⟨bv, p, hbv, rfl⟩ | rfl
      · exact h.tallied key bv hbv
      refine ⟨(powerOfVotes_none _).symm, ?_⟩
      show replicate _ false = (replicate _ none).map _
      rw [map_replicate]
      rfl
    · rw [hmaj, hquorum, h.reached]
      constructor
      · rintro ⟨key, bv, hbv, hle⟩
        obtain ⟨p, hbv'⟩ := hforth key bv hbv
        exact ⟨key, _, hbv', hle⟩
      rintro ⟨key, bv', hbv', hle⟩
      rcases hback key bv' hbv' with ⟨bv, p, hbv, rfl⟩ | rfl
      · exact ⟨key, bv, hbv, hle⟩
      exact absurd hle (Int.not_le.mpr quorum_pos)
    rw [hquorum]
    rw [hmaj] at hid
    obtain ⟨bv, hbv, hle⟩ := h.majority id hid
    obtain ⟨p, hbv'⟩ := hforth _ bv hbv
    exact ⟨_, hbv', hle⟩
  refine ⟨?_, fun key bv' hbv' => ?_, fun key bv' i hbv' hi => ?_⟩
  · rw [hvotes, hvals]
    exact hs.votes_length
  · rw [hvals]
    rcases hback key bv' hbv' with ⟨bv, p, hbv, rfl⟩ | rfl
    · exact hs.block_length key bv hbv
    exact length_replicate
  rw [hget]
  rcases hback key bv' hbv' with ⟨bv, p, hbv, rfl⟩ | rfl
  · exact hs.seen key bv i hbv hi
  rw [getByIndex_new] at hi
  cases hi

-- ==== one call

section Outcome

variable {vs₁ : VoteSet} {val : Validator} {conflicting : Option Vote}

section

variable (hcheck : vs.checkVote c v = .ok val)

include hcheck

lemma addVote_recorded {bv : BlockVotes}
    (hplace : vs.place v v.blockID.key val.votingPower
      = .ok (vs₁, conflicting))
    (htracked : vs₁.tracked v.blockID.key conflicting = some bv) :
    ∃ e, vs.addVote c v
      = .ok (vs₁.record v v.blockID.key val.votingPower bv, true, e)
      ∧ (conflicting = none → e = none) := by
  unfold addVote addVerifiedVote
  simp only [hcheck, hplace, htracked]
  cases conflicting with
  | none => exact ⟨none, rfl, fun _ => rfl⟩
  | some existing => exact ⟨_, rfl, fun h => by cases h⟩

lemma tracked_first (h : vs.Consistent) (hs : vs.Shaped) :
    ∃ bv, vs.tracked v.blockID.key none = some bv ∧ vs.Tracks v bv := by
  unfold tracked
  cases hbv : vs.votesByBlock.lookup v.blockID.key with
  | none => exact ⟨_, rfl, tracks_of_none hbv⟩
  | some bv => exact ⟨bv, rfl, tracks_of_lookup h hs (getVote_of_checkVote hcheck) hbv⟩

lemma addVote_untracked {existing : Vote}
    (hplace : vs.place v v.blockID.key val.votingPower
      = .ok (vs₁, some existing))
    (htracked : vs₁.tracked v.blockID.key (some existing) = none) :
    ∃ e, vs.addVote c v = .ok (vs₁, false, e) := by
  unfold addVote addVerifiedVote
  simp only [hcheck, hplace, htracked]
  exact ⟨_, rfl⟩

/-- Where a vote that passed the checks goes. -/
lemma place_of_checkVote : (vs.getByIndex v.validatorIndex.toNat = none
      ∧ vs.place v v.blockID.key val.votingPower
        = .ok ({ vs.put v with sum := vs.sum + val.votingPower }, none))
      ∨ ∃ existing, vs.getByIndex v.validatorIndex.toNat = some existing
        ∧ existing ≠ v
        ∧ vs.place v v.blockID.key val.votingPower
          = .ok (if vs.maj23.any (fun m => m.key = v.blockID.key)
              then vs.put v else vs, some existing) := by
  have hother := (getVote_eq_none (getVote_of_checkVote hcheck)).1
  unfold place
  cases hvote : vs.getByIndex v.validatorIndex.toNat with
  | none =>
    rw [show vs.votes.getD _ none = none from hvote]
    exact .inl ⟨rfl, rfl⟩
  | some existing =>
    rw [show vs.votes.getD _ none = some existing from hvote]
    have hne := hother existing hvote
    refine .inr ⟨existing, rfl, fun heq => hne (heq ▸ rfl), ?_⟩
    have hid : existing.blockID ≠ v.blockID := fun heq => hne (heq ▸ rfl)
    simp only [if_neg hid]
    split
    · rfl
    rfl

end

/-- What `AddVote` does to a consistent set: nothing, or it records the
vote, or the vote strays. -/
lemma addVote_outcome (h : vs.Consistent) (hs : vs.Shaped) (v : Vote) :
    (∃ e, vs.addVote c v = .ok (vs, false, e) ∧ vs.strays c (.addVote v) = false)
    ∨ (∃ val bv vs₁ e, vs.valSet.validators[v.validatorIndex.toNat]? = some val
        ∧ vs.Placed v vs₁ ∧ vs.Tracks v bv
        ∧ vs.addVote c v = .ok (vs₁.record v v.blockID.key val.votingPower bv, true, e)
        ∧ vs.strays c (.addVote v) = false)
    ∨ (∃ e, vs.addVote c v = .ok (vs.put v, false, e) ∧ vs.put v ≠ vs
        ∧ vs.strays c (.addVote v) = true) := by
  cases hcheck : vs.checkVote c v with
  | error e =>
    refine .inl ⟨e, ?_, ?_⟩
    · unfold addVote
      rw [hcheck]
    simp only [strays, hcheck]
    rfl
  | ok val =>
    obtain ⟨hval, -⟩ := checkVote_ok hcheck
    have hnew := getVote_of_checkVote hcheck
    have hlt : v.validatorIndex.toNat < vs.votes.length := by
      rw [hs.votes_length]
      exact (List.getElem?_eq_some_iff.mp hval).1
    have hok : (vs.checkVote c v).isOk = true := by
      rw [hcheck]
      rfl
    rcases place_of_checkVote hcheck with ⟨hvote, hplace⟩ | ⟨existing, hvote, hne, hplace⟩
    · -- a validator's first vote is always recorded
      have hp := placed_new h hlt hval hvote
      have hstrays : vs.strays c (.addVote v) = false := by simp [strays, hvote]
      obtain ⟨bv, htracked, ht⟩ := tracked_first hcheck h hs
      obtain ⟨e, hadd, -⟩ := addVote_recorded hcheck hplace htracked
      exact .inr (.inl ⟨val, bv, _, e, hval, hp, ht, hadd, hstrays⟩)
    -- a conflicting one only for a block that a peer has claimed
    have hsome : (vs.getByIndex v.validatorIndex.toNat).isSome := by
      rw [hvote]
      rfl
    cases hpeer : (vs.votesByBlock.lookup v.blockID.key).any (·.peerMaj23) with
    | true =>
      obtain ⟨bv, hbv, hclaimed⟩ := (any_eq_true _ _).mp hpeer
      have hstrays : vs.strays c (.addVote v) = false := by simp [strays, hpeer]
      have htracked : ∀ vs₁ : VoteSet, vs₁.votesByBlock = vs.votesByBlock →
          vs₁.tracked v.blockID.key (some existing) = some bv := by
        intro vs₁ heq
        simp [tracked, heq, hbv, hclaimed]
      obtain ⟨e, hadd, -⟩ := addVote_recorded hcheck hplace (htracked _ (by split <;> rfl))
      refine .inr (.inl ⟨val, bv, _, e, hval, ?_, tracks_of_lookup h hs hnew hbv, hadd, hstrays⟩)
      split
      · exact placed_over h hlt hvote
      exact placed_same h hsome
    | false =>
      have htracked : ∀ vs₁ : VoteSet, vs₁.votesByBlock = vs.votesByBlock →
          vs₁.tracked v.blockID.key (some existing) = none := by
        intro vs₁ heq
        unfold tracked
        rw [heq]
        cases hbv : vs.votesByBlock.lookup v.blockID.key with
        | none => rfl
        | some bv =>
          rw [hbv] at hpeer
          have hpeer : bv.peerMaj23 = false := hpeer
          simp [hpeer]
      obtain ⟨e, hadd⟩ := addVote_untracked hcheck hplace (htracked _ (by split <;> rfl))
      cases hmaj : vs.maj23.any fun m => m.key = v.blockID.key with
      | true =>
        rw [hmaj] at hadd
        refine .inr (.inr ⟨e, hadd, fun heq => ?_, ?_⟩)
        · have hput := getByIndex_put hlt v.validatorIndex.toNat
          rw [heq, if_pos rfl, hvote] at hput
          exact hne (some.inj hput)
        simp [strays, hok, hsome, hmaj, hpeer]
      | false =>
        rw [hmaj] at hadd
        exact .inl ⟨e, hadd, by simp [strays, hmaj]⟩

end Outcome

lemma call_addVote {added : Bool} {e : Option VoteError}
    (h : vs.addVote c v = .ok (vs', added, e)) :
    vs.call c (.addVote v) = .ok (vs', some added) := by
  simp only [call, h]

/-- A call either keeps everything, or strays, and then it changes the set
and says that it has not added a vote. -/
lemma call_outcome (h : vs.Consistent) (hs : vs.Shaped) (x : Call) :
    (vs.strays c x = false
      ∧ ∃ vs' added, vs.call c x = .ok (vs', added) ∧ vs'.Consistent
        ∧ vs'.Shaped ∧ (vs.maj23.isSome → vs'.maj23 = vs.maj23)
        ∧ (added = some false → vs' = vs))
      ∨ (vs.strays c x = true
        ∧ ∃ vs', vs.call c x = .ok (vs', some false) ∧ vs' ≠ vs) := by
  cases x with
  | addVote v =>
    rcases addVote_outcome (c := c) h hs v with ⟨e, hadd, hstrays⟩ |
      ⟨val, bv, vs₁, e, hval, hp, ht, hadd, hstrays⟩ | ⟨e, hadd, hne, hstrays⟩
    · exact .inl ⟨hstrays, vs, some false, call_addVote hadd, h, hs, fun _ => rfl, fun _ => rfl⟩
    · refine .inl ⟨hstrays, _, some true, call_addVote hadd,
        consistent_record hp ht hs hval rfl rfl h, shaped_record hp ht hs hval rfl rfl,
        fun hsome => ?_, fun hfalse => by cases hfalse⟩
      rcases record_maj23 vs₁ v v.blockID.key val.votingPower bv with hsame | ⟨hnone, -⟩
      · rw [hsame, hp.maj23]
      rw [← hp.maj23, hnone] at hsome
      cases hsome
    exact .inr ⟨hstrays, vs.put v, call_addVote hadd, hne⟩
  | setPeerMaj23 peerID blockID =>
    obtain ⟨hconsistent, hshaped⟩ := consistent_setPeerMaj23 h hs peerID blockID
    exact .inl ⟨rfl, _, none, rfl, hconsistent,
      hshaped, fun _ => (setPeerMaj23_spec peerID blockID).2.1, fun hfalse => by cases hfalse⟩

-- ==== whole runs

lemma calls_concat (xs : List Call) (x : Call) :
    vs.calls c (xs ++ [x]) = (match vs.calls c xs with
    | .error e => .error e
    | .ok vs' => (vs'.call c x).map Prod.fst) := by
  induction xs generalizing vs with
  | nil =>
    show vs.calls c [x] = (vs.call c x).map Prod.fst
    unfold calls
    cases vs.call c x with
    | error e => rfl
    | ok r => rfl
  | cons y xs ih =>
    rw [cons_append]
    unfold calls
    cases vs.call c y with
    | error e => rfl
    | ok r => exact ih

lemma consistent_new (chainID : String) (height round : Int)
    (type : SignedMsgType) (vals : ValidatorSet) (ext : Bool) :
    (VoteSet.new chainID height round type vals ext).Consistent
      ∧ (VoteSet.new chainID height round type vals ext).Shaped := by
  have hempty : ∀ key, (new chainID height round type vals
      ext).votesByBlock.lookup key = none := AList.lookup_empty
  have hget : ∀ i, (new chainID height round type vals ext).getByIndex i = none := by
    intro i
    unfold getByIndex new
    rw [getD_eq_getElem?_getD, getElem?_replicate]
    split
    · rfl
    rfl
  constructor
  · refine ⟨(powerOfVotes_none _).symm, ?_, fun i w hw => ?_,
      fun key bv i w hbv _ => ?_, fun key bv hbv => ?_, ?_, fun id hid => ?_⟩
    · show replicate _ false = (replicate _ none).map _
      rw [map_replicate]
      rfl
    · rw [hget] at hw
      cases hw
    · rw [hempty] at hbv
      cases hbv
    · rw [hempty] at hbv
      cases hbv
    · refine ⟨fun hsome => absurd hsome Bool.false_ne_true, ?_⟩
      rintro ⟨key, bv, hbv, -⟩
      cases hbv
    cases hid
  refine ⟨length_replicate, fun key bv hbv => ?_, fun key bv i hbv _ => ?_⟩
  · rw [hempty] at hbv
    cases hbv
  cases hbv

/-- After the calls before it, a call does not panic, keeps the set
consistent and a majority that was found, and changes nothing if it returns
that no vote was added. -/
def Keeps (c : Crypto) (start : VoteSet) (before : List Call) (x : Call) :
    Prop :=
  ∃ vs vs' added, start.calls c before = .ok vs ∧ vs.call c x = .ok (vs', added)
    ∧ vs'.Consistent ∧ (vs.maj23.isSome → vs'.maj23 = vs.maj23) ∧ (added = some false → vs' = vs)

/-- After the calls before it, a call does not stray. -/
def Direct (c : Crypto) (start : VoteSet) (before : List Call) (x : Call) :
    Prop :=
  ∀ vs, start.calls c before = .ok vs → vs.strays c x = false

/-- As long as nothing strays, every set is consistent, and what keeps it so
is what does not stray. -/
lemma keeps_iff_direct {start : VoteSet} (h : start.Consistent)
    (hs : start.Shaped) (xs : List Call) :
    (Along (start.Keeps c) [] xs ↔ Along (start.Direct c) [] xs)
      ∧ (Along (start.Direct c) [] xs →
        ∃ vs, start.calls c xs = .ok vs ∧ vs.Consistent ∧ vs.Shaped) := by
  induction xs using reverseRecOn with
  | nil => exact ⟨Iff.rfl, fun _ => ⟨start, rfl, h, hs⟩⟩
  | append_singleton xs x ih =>
    obtain ⟨hiff, hrun⟩ := ih
    rw [along_concat, along_concat, nil_append, hiff]
    refine ⟨and_congr_right fun hxs => ?_, fun ⟨hxs, hx⟩ => ?_⟩
    · obtain ⟨vs, hvs, hconsistent, hshaped⟩ := hrun hxs
      rcases call_outcome (c := c) hconsistent hshaped x with
        ⟨hstrays, vs', added, hcall, hconsistent', -, hmaj, hsame⟩ |
        ⟨hstrays, vs', hcall, hne⟩
      · refine ⟨fun _ vs₁ hvs₁ => ?_, fun _ => ⟨vs, vs', added, hvs, hcall,
          hconsistent', hmaj, hsame⟩⟩
        rw [hvs] at hvs₁
        cases hvs₁
        exact hstrays
      refine ⟨fun ⟨vs₁, vs₂, added, hvs₁, hcall₁, _, _, hsame⟩ => ?_, fun hx => ?_⟩
      · rw [hvs] at hvs₁
        cases hvs₁
        rw [hcall] at hcall₁
        cases hcall₁
        exact absurd (hsame rfl) hne
      rw [hx vs hvs] at hstrays
      cases hstrays
    obtain ⟨vs, hvs, hconsistent, hshaped⟩ := hrun hxs
    rcases call_outcome (c := c) hconsistent hshaped x with
      ⟨-, vs', added, hcall, hconsistent', hshaped', -, -⟩ |
      ⟨hstrays, -⟩
    · refine ⟨vs', ?_, hconsistent', hshaped'⟩
      rw [calls_concat, hvs]
      dsimp only
      rw [hcall]
      rfl
    rw [hx vs hvs] at hstrays
    cases hstrays

end VoteSet

/-- For every sequence of calls: each of them keeps the set consistent and
the majority, does not panic, and changes nothing when it returns that no
vote was added, exactly when no vote strays. -/
theorem vote_set_consistent_iff (c : Crypto) (chainID : String)
    (height round : Int) (type : SignedMsgType) (vals : ValidatorSet)
    (ext : Bool) (xs : List VoteSet.Call) :
    let start := new chainID height round type vals ext
    start.Consistent ∧ (Along (start.Keeps c) [] xs ↔ Along (start.Direct c) [] xs) := by
  intro start
  obtain ⟨hstart, hshaped⟩ := consistent_new chainID height round type vals ext
  exact ⟨hstart, (keeps_iff_direct hstart hshaped xs).1⟩

-- Two validators, with three quarters and one quarter of the power.

def sampleKey (b : UInt8) : Bytes := List.replicate 20 b

def sampleValidators : ValidatorSet where
  validators := [⟨sampleKey 1, sampleKey 1, 3, 0⟩, ⟨sampleKey 2, sampleKey 2, 1, 0⟩]
  proposer := some ⟨sampleKey 2, sampleKey 2, 1, 0⟩
  power_pos := by decide
  addresses_nodup := by decide
  total_le := by decide

def sampleID (b : UInt8) : BlockID := ⟨List.replicate 32 7, 1, List.replicate 32 b⟩

def sampleVote (type : SignedMsgType) (round : Int) (id : BlockID) (index : Nat) : Vote where
  type := type
  height := 1
  round := round
  blockID := id
  timestamp := 1
  validatorAddress := sampleKey (UInt8.ofNat (index + 1))
  validatorIndex := index
  signature := sampleKey (UInt8.ofNat (index + 1))
  extension := []
  extensionSignature := []

def sampleCrypto : Crypto where
  address := id
  verifySignature pubKey _ sig := sig = pubKey
  voteSignBytes _ _ := []
  voteExtensionSignBytes _ _ := []

/-- The second validator precommits nil, the first one a block, which is
then the majority. -/
def divided : List VoteSet.Call :=
  [.addVote (sampleVote .precommit 0 BlockID.zero 1),
    .addVote (sampleVote .precommit 0 (sampleID 9) 0)]

/-- When the second validator precommits the block too, its vote replaces
the one for nil, although the call returns that it was not added, and it is
not among the votes for the block. -/
theorem vote_set_strays :
    ∃ vs vs', (VoteSet.new "hetu" 1 0 .precommit sampleValidators false).calls
      sampleCrypto divided = .ok vs
      ∧ vs.call sampleCrypto
        (.addVote (sampleVote .precommit 0 (sampleID 9) 1))
        = .ok (vs', some false)
      ∧ vs'.getByIndex 1 ≠ vs.getByIndex 1
      ∧ vs'.getByIndex 1 = some (sampleVote .precommit 0 (sampleID 9) 1)
      ∧ ∃ bv, vs'.votesByBlock.lookup (sampleID 9).key = some bv
        ∧ bv.getByIndex 1 = none := by
  refine ⟨_, _, rfl, rfl, ?_, ?_, _, rfl, ?_⟩
  all_goals decide +kernel

end HetuEngine.Comet
