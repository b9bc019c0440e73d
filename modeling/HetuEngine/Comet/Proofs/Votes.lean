/-
What vote sets count.

`Grows` is everything that can happen to the votes of a height: a new round
is tracked, a vote is added (or not), a peer claims a majority. A vote set is
then new and empty, or does one step of its own (`Grows.voteSet`). A majority,
once found, stays; a new one is of the vote that was added.

# What a majority means

`Counts` ties the sums to the votes: the power summed for a block id is that
of different validators, each of whom signed a vote with the key of this id.
Ids in votes name no block or have a full hash, and then the key determines
the id (`key_inj`). So a majority is a quorum of signed votes for one id
(`quorum_of_majority`).
-/
import Mathlib.Algebra.BigOperators.Ring.Finset
import HetuEngine.Comet.VoteSet
import HetuEngine.Lib.Weight

namespace HetuEngine.Comet

open Lib Lib.Weight List Option AList ValidatorSet VoteSet Nat

lemma ReceivedSet.totalVotingPower_nonneg (vals : ReceivedSet) :
    0 ≤ vals.totalVotingPower :=
  sum_nonneg fun x hx => by
    obtain ⟨val, hval, rfl⟩ := mem_map.mp hx
    exact vals.power_nonneg val hval

-- ==== keys

/-- The number that a varint at the front stands for, and what follows it. -/
def uvarint : Bytes → Option (Nat × Bytes)
  | [] => none
  | b :: bytes =>
    if b.toNat < 128 then some (b.toNat, bytes)
    else (uvarint bytes).map fun x => (b.toNat % 128 + 128 * x.1, x.2)

lemma uvarint_varint {n fuel : Nat} {xs : Bytes} (h : n < 128 ^ (fuel + 1)) :
    uvarint (varint fuel n ++ xs) = some (n, xs) := by
  induction fuel generalizing n with
  | zero =>
    have hbyte : (UInt8.ofNat n).toNat = n := mod_eq_of_lt (by omega)
    simp [varint, uvarint, hbyte, show n < 128 by omega]
  | succ fuel ih =>
    unfold varint
    split
    next hlt =>
      have hbyte : (UInt8.ofNat n).toNat = n := mod_eq_of_lt (by omega)
      simp [uvarint, hbyte, hlt]
    next hge =>
      have hbyte : (UInt8.ofNat (n % 128 + 128)).toNat = n % 128 + 128 :=
        mod_eq_of_lt (by omega)
      rw [cons_append, uvarint, hbyte, if_neg (by omega), ih (by omega), Option.map_some]
      simp only [Option.some.injEq, Prod.mk.injEq, and_true]
      omega

lemma lt_fuel (n : Nat) : n < 128 ^ (n + 1) :=
  (Nat.lt_succ_self n).trans (Nat.lt_pow_self (by decide))

lemma encodeVarint_append_inj {n m : Nat} {xs ys : Bytes}
    (h : encodeVarint n ++ xs = encodeVarint m ++ ys) : n = m ∧ xs = ys := by
  have hread : uvarint (encodeVarint n ++ xs) = some (n, xs) := uvarint_varint (lt_fuel n)
  rw [h, encodeVarint, uvarint_varint (lt_fuel m)] at hread
  cases hread
  exact ⟨rfl, rfl⟩

def hashField (hash : Bytes) : Bytes :=
  if hash.length ≠ 0 then 0x12 :: (encodeVarint hash.length ++ hash) else []

lemma hashField_inj {a b : Bytes} (h : hashField a = hashField b) : a = b := by
  unfold hashField at h
  split at h
  · split at h
    · injection h with _ htail
      exact (encodeVarint_append_inj htail).2
    cases h
  next ha =>
  split at h
  · cases h
  next hb =>
  rw [eq_nil_of_length_eq_zero (not_not.mp ha), eq_nil_of_length_eq_zero (not_not.mp hb)]

lemma hashField_ne (hash xs : Bytes) : hashField hash ≠ 0x08 :: xs := by
  unfold hashField
  split
  · intro h
    injection h with hhead _
    exact absurd hhead (by decide)
  intro h
  cases h

lemma marshal_inj {a b : PartSetHeader} (h : a.marshal = b.marshal) :
    a = b := by
  obtain ⟨total, hash⟩ := a
  obtain ⟨total', hash'⟩ := b
  change (if total ≠ 0 then 0x08 :: encodeVarint total else []) ++ hashField hash
    = (if total' ≠ 0 then 0x08 :: encodeVarint total' else []) ++ hashField hash' at h
  split at h
  · split at h
    · injection h with _ htail
      obtain ⟨rfl, hfield⟩ := encodeVarint_append_inj htail
      rw [hashField_inj hfield]
    exact absurd h.symm (hashField_ne _ _)
  next ht =>
  split at h
  · exact absurd h (hashField_ne _ _)
  next ht' => rw [not_not.mp ht, not_not.mp ht', hashField_inj h]

/-- The id names no block, or one by a full hash. -/
def BlockID.sized (id : BlockID) : Prop := id = zero ∨ id.hash.length = tmhashSize

lemma BlockID.sized_of_wellFormed {id : BlockID} (h : id.wellFormed = true) :
    id.sized := by
  rcases Bool.or_eq_true_iff.mp h with h | h
  · exact .inl (isZero_iff.mp h)
  simp only [isComplete, Bool.and_eq_true, decide_eq_true_eq] at h
  exact .inr h.1.1

lemma Vote.sized_of_validateBasic {v : Vote} (h : v.validateBasic = true) :
    v.blockID.sized := by
  unfold validateBasic at h
  simp only [Bool.and_eq_true] at h
  exact BlockID.sized_of_wellFormed h.1.1.1.1.1.2

lemma BlockID.key_inj {a b : BlockID} (ha : a.sized) (hb : b.sized)
    (h : a.key = b.key) : a = b := by
  have hlong : ∀ {id : BlockID}, id.hash.length = tmhashSize → zero.key ≠ id.key := by
    intro id hid heq
    have := congrArg length heq
    unfold key at this
    rw [length_append, length_append, hid] at this
    change 0 = tmhashSize + _ at this
    unfold tmhashSize at this
    omega
  rcases ha with rfl | ha
  · rcases hb with rfl | hb
    · rfl
    exact absurd h (hlong hb)
  rcases hb with rfl | hb
  · exact absurd h.symm (hlong ha)
  obtain ⟨hhash, hpsh⟩ := append_inj h (ha.trans hb.symm)
  obtain ⟨hash, psh⟩ := a
  obtain ⟨hash', psh'⟩ := b
  exact BlockID.mk.injEq .. ▸ ⟨hhash, marshal_inj hpsh⟩

-- ==== one vote set

/-- The validator's signature is on the vote, and its key belongs to its
address. -/
def Crypto.SignedBy (c : Crypto) (chainID : String) (val : Validator) (v : Vote) : Prop :=
  c.address val.pubKey = val.address ∧ c.signed chainID val.pubKey v = true

/-- What can happen to a vote set: nothing, a vote of `k`, a claim. -/
inductive VoteSet.Grows (c : Crypto) (k : Vote → Prop) (vs : VoteSet) :
    VoteSet → Prop
  | refl : Grows c k vs vs
  | addVote {vs' : VoteSet} {v : Vote} {added : Bool} {e : Option VoteError}
      (hv : k v) (h : vs.addVote c v = .ok (vs', added, e)) : Grows c k vs vs'
  | peerMaj23 (peerID : PeerID) (blockID : BlockID) : Grows c k vs (vs.setPeerMaj23 peerID blockID)

namespace VoteSet

variable {c : Crypto} {k P : Vote → Prop} {vs vs' : VoteSet} {v : Vote}

def frame (vs : VoteSet) : String × Int × Int × SignedMsgType × ValidatorSet :=
  (vs.chainID, vs.height, vs.round, vs.signedMsgType, vs.valSet)

variable {chainID : String}

lemma frame_inv {chainID : String} {height round : Int}
    {type : SignedMsgType} {vals : ValidatorSet}
    (h : vs.frame = (chainID, height, round, type, vals)) :
    vs.chainID = chainID ∧ vs.height = height ∧ vs.round = round
    ∧ vs.signedMsgType = type ∧ vs.valSet = vals := by
  simpa only [frame, Prod.mk.injEq] using h

lemma frame_valSet (h : vs'.frame = vs.frame) : vs'.valSet = vs.valSet :=
  (frame_inv h).2.2.2.2

/-- Validator `i` signed the vote, which belongs into this set and is one
of `P`. -/
structure Admits (c : Crypto) (P : Vote → Prop) (vs : VoteSet) (i : Nat) (v : Vote) : Prop where
  signed : ∃ val, vs.valSet.validators[i]? = some val ∧ c.SignedBy vs.chainID val v
  height : v.height = vs.height
  round : v.round = vs.round
  type : v.type = vs.signedMsgType
  mem : P v

lemma Admits.congr {i : Nat} (h : Admits c P vs i v)
    (hframe : vs'.frame = vs.frame) : Admits c P vs' i v := by
  obtain ⟨hchain, hheight, hround, htype, hvals⟩ := frame_inv hframe
  refine ⟨?_, h.height.trans hheight.symm, h.round.trans hround.symm,
    h.type.trans htype.symm, h.mem⟩
  rw [hvals, hchain]
  exact h.signed

lemma verify_ok {pubKey : Bytes} {u : Unit}
    (h : c.verify chainID pubKey v = .ok u) :
    c.address pubKey = v.validatorAddress
      ∧ c.signed chainID pubKey v = true := by
  unfold Crypto.verify at h
  split at h
  · cases h
  next haddress =>
  split at h
  · cases h
  next hs => exact ⟨Decidable.not_not.mp haddress, by simpa using hs⟩

lemma verifyVoteAndExtension_ok {pubKey : Bytes} {u : Unit}
    (h : c.verifyVoteAndExtension chainID pubKey v = .ok u) :
    c.verify chainID pubKey v = .ok () := by
  unfold Crypto.verifyVoteAndExtension at h
  cases hverify : c.verify chainID pubKey v with
  | error e =>
    rw [hverify] at h
    cases h
  | ok u => rfl

lemma checkVote_inv {val : Validator} (h : vs.checkVote c v = .ok val) :
    0 ≤ v.validatorIndex
      ∧ vs.valSet.validators[v.validatorIndex.toNat]? = some val
      ∧ (v.height = vs.height ∧ v.round = vs.round ∧ v.type = vs.signedMsgType)
      ∧ v.validatorAddress = val.address
      ∧ vs.getVote v.validatorIndex.toNat v.blockID.key = none
      ∧ c.verify vs.chainID val.pubKey v = .ok ()
      ∧ (vs.extensionsEnabled = false →
        v.extension = [] ∧ v.extensionSignature = []) := by
  unfold checkVote at h
  split at h
  · cases h
  next hindex =>
  split at h
  · cases h
  split at h
  · cases h
  next hstep =>
  simp only [ne_eq, Bool.or_eq_true, decide_eq_true_eq, not_or, not_not] at hstep
  split at h
  · cases h
  next val' hval =>
  unfold getByIndex at hval
  rw [if_neg hindex] at hval
  split at h
  · cases h
  next haddress =>
  have haddress := Decidable.not_not.mp haddress
  split at h
  · split at h
    · cases h
    cases h
  next hnew =>
  split at h
  · next hext =>
    split at h
    · cases h
    next hv =>
    cases h
    refine ⟨Int.not_lt.mp hindex, hval,
      ⟨hstep.1.1, hstep.1.2, hstep.2⟩, haddress, hnew, verifyVoteAndExtension_ok hv, fun hoff => ?_⟩
    rw [hext] at hoff
    cases hoff
  split at h
  · cases h
  next hv =>
  split at h
  · cases h
  next hplain =>
  cases h
  refine ⟨Int.not_lt.mp hindex, hval, ⟨hstep.1.1, hstep.1.2, hstep.2⟩,
    haddress, hnew, hv, fun _ => ?_⟩
  simp only [Bool.or_eq_true, decide_eq_true_eq, not_or, not_lt, le_zero,
    length_eq_zero_iff] at hplain
  exact ⟨hplain.2, hplain.1⟩

lemma checkVote_ok {val : Validator} (h : vs.checkVote c v = .ok val) :
    vs.valSet.validators[v.validatorIndex.toNat]? = some val
      ∧ v.height = vs.height ∧ v.round = vs.round ∧ v.type = vs.signedMsgType
      ∧ c.SignedBy vs.chainID val v := by
  obtain ⟨-, hval, ⟨hheight, hround, htype⟩, haddress, -, hv, -⟩ := checkVote_inv h
  obtain ⟨hkey, hsigned⟩ := verify_ok hv
  exact ⟨hval, hheight, hround, htype, hkey.trans haddress, hsigned⟩

variable {conflicting : Option Vote} {power : Int} {key : Bytes}

/-- Placing a vote changes nothing, or it sets the slot of the vote and
perhaps counts it. -/
lemma place_cases (h : vs.place v key power = .ok (vs', conflicting)) :
    vs' = vs ∨ ∃ votesBitArray sum, (sum = vs.sum ∨ sum = vs.sum + power) ∧ vs' = { vs with
          votes := vs.votes.set v.validatorIndex.toNat (some v)
          votesBitArray, sum } := by
  unfold place at h
  split at h
  · split at h
    · cases h
    split at h
    · cases h
      exact .inr ⟨_, _, .inl rfl, rfl⟩
    cases h
    exact .inl rfl
  cases h
  exact .inr ⟨_, _, .inr rfl, rfl⟩

/-- The canonical votes are not what majorities are counted from. -/
lemma place_ok (h : vs.place v key power = .ok (vs', conflicting)) :
    vs'.frame = vs.frame ∧ vs'.votesByBlock = vs.votesByBlock
      ∧ vs'.maj23 = vs.maj23 := by
  rcases place_cases h with rfl | ⟨_, _, -, rfl⟩
  all_goals exact ⟨rfl, rfl, rfl⟩

variable {bv : BlockVotes}

lemma tracked_eq_some (h : vs.tracked key conflicting = some bv) :
    vs.votesByBlock.lookup key = some bv ∨ (vs.votesByBlock.lookup key = none
        ∧ bv = BlockVotes.new false vs.valSet.size) := by
  unfold tracked at h
  split at h
  · next bv' hbv =>
    split at h
    · cases h
    cases h
    exact .inl hbv
  next hnone =>
  split at h
  · cases h
  cases h
  exact .inr ⟨hnone, rfl⟩

/-- Adding a vote: nothing changes, or a vote that was checked is placed,
and perhaps recorded for its block. -/
lemma addVote_cases {added : Bool} {e : Option VoteError}
    (h : vs.addVote c v = .ok (vs', added, e)) :
    vs' = vs ∨ ∃ val vs₁ conflicting, vs.checkVote c v = .ok val
    ∧ vs.place v v.blockID.key val.votingPower = .ok (vs₁, conflicting)
    ∧ (vs' = vs₁ ∨ ∃ bv, vs₁.tracked v.blockID.key conflicting = some bv
        ∧ vs' = vs₁.record v v.blockID.key val.votingPower bv) := by
  unfold addVote at h
  split at h
  · cases h
    exact .inl rfl
  next val hcheck =>
  suffices key : ∀ conflicting,
      vs.addVerifiedVote v v.blockID.key val.votingPower = .ok (vs', added, conflicting) → _ by
    split at h
    · cases h
    · next hadd =>
      cases h
      exact key _ hadd
    next hadd =>
    split at h
    · cases h
      exact key _ hadd
    cases h
  intro conflicting hadd
  unfold addVerifiedVote at hadd
  split at hadd
  · cases hadd
  next vs₁ conflicting' hplace =>
  split at hadd
  · cases hadd
    exact .inr ⟨val, _, _, hcheck, hplace, .inl rfl⟩
  next bv htracked =>
  cases hadd
  exact .inr ⟨val, vs₁, _, hcheck, hplace, .inr ⟨bv, htracked, rfl⟩⟩

/-- Adding a vote: nothing counted changes, or a signed vote is recorded
for its block. -/
lemma addVote_ok {added : Bool} {e : Option VoteError}
    (h : vs.addVote c v = .ok (vs', added, e)) :
    (vs'.frame = vs.frame ∧ vs'.votesByBlock = vs.votesByBlock ∧ vs'.maj23 = vs.maj23) ∨
    ∃ (vs₁ : VoteSet) (val : Validator) (bv : BlockVotes),
      vs.valSet.validators[v.validatorIndex.toNat]? = some val
      ∧ v.height = vs.height ∧ v.round = vs.round
      ∧ v.type = vs.signedMsgType ∧ c.SignedBy vs.chainID val v
      ∧ vs₁.frame = vs.frame ∧ vs₁.votesByBlock = vs.votesByBlock
      ∧ vs₁.maj23 = vs.maj23
      ∧ (vs.votesByBlock.lookup v.blockID.key = some bv
          ∨ (vs.votesByBlock.lookup v.blockID.key = none
              ∧ bv = BlockVotes.new false vs.valSet.size))
      ∧ vs' = vs₁.record v v.blockID.key val.votingPower bv := by
  rcases addVote_cases h with rfl | ⟨val, vs₁, conflicting, hcheck, hplace, hrest⟩
  · exact .inl ⟨rfl, rfl, rfl⟩
  obtain ⟨hval, hheight, hround, htype, hsigned⟩ := checkVote_ok hcheck
  obtain ⟨hframe, hvotes, hmaj⟩ := place_ok hplace
  rcases hrest with rfl | ⟨bv, htracked, rfl⟩
  · exact .inl ⟨hframe, hvotes, hmaj⟩
  refine .inr ⟨vs₁, val, bv, hval, hheight, hround, htype, hsigned, hframe, hvotes, hmaj, ?_, rfl⟩
  have hvals := frame_valSet hframe
  rcases tracked_eq_some htracked with hbv | hbv
  · rw [hvotes] at hbv
    exact .inl hbv
  rw [hvotes, hvals] at hbv
  exact .inr hbv

lemma record_frame : (vs.record v key power bv).frame = vs.frame := by
  unfold record
  dsimp only
  split
  · rfl
  rfl

lemma record_lookup {key' : Bytes} : (vs.record v key power bv).votesByBlock.lookup key'
    = if key' = key then some (bv.addVerifiedVote v power) else vs.votesByBlock.lookup key' := by
  have hins : (vs.record v key power bv).votesByBlock
      = vs.votesByBlock.insert key (bv.addVerifiedVote v power) := by
    unfold record
    dsimp only
    split
    · rfl
    rfl
  rw [hins]
  split
  · next heq =>
    subst heq
    exact lookup_insert _
  next hne => exact lookup_insert_ne hne

lemma record_maj23 (vs : VoteSet) (v : Vote) (key : Bytes) (power : Int)
    (bv : BlockVotes) :
    (vs.record v key power bv).maj23 = vs.maj23
      ∨ (vs.maj23 = none ∧ (vs.record v key power bv).maj23 = some v.blockID
        ∧ bv.sum < vs.quorum
        ∧ vs.quorum ≤ (bv.addVerifiedVote v power).sum) := by
  unfold record
  dsimp only
  split
  · next h => exact .inr ⟨h.2.2, rfl, h.1, h.2.1⟩
  exact .inl rfl

lemma setPeerMaj23_spec (peerID : PeerID) (blockID : BlockID) :
    (vs.setPeerMaj23 peerID blockID).frame = vs.frame
    ∧ (vs.setPeerMaj23 peerID blockID).maj23 = vs.maj23
    ∧ ∀ key, (vs.setPeerMaj23 peerID blockID).votesByBlock.lookup key = vs.votesByBlock.lookup key
      ∨ (∃ bv, vs.votesByBlock.lookup key = some bv ∧
          (vs.setPeerMaj23 peerID blockID).votesByBlock.lookup key
            = some { bv with peerMaj23 := true })
        ∨ (vs.votesByBlock.lookup key = none ∧
            (vs.setPeerMaj23 peerID blockID).votesByBlock.lookup key
              = some (BlockVotes.new true vs.valSet.size)) := by
  unfold setPeerMaj23
  split
  · exact ⟨rfl, rfl, fun key => .inl rfl⟩
  refine ⟨rfl, rfl, fun key => ?_⟩
  by_cases hkey : key = blockID.key
  · subst hkey
    rw [lookup_insert]
    split
    · next bv hbv => exact .inr (.inl ⟨bv, hbv, rfl⟩)
    next hbv => exact .inr (.inr ⟨hbv, rfl⟩)
  exact .inl (lookup_insert_ne hkey)

/-- The identity of a vote set never changes. -/
lemma Grows.frame (h : Grows c k vs vs') : vs'.frame = vs.frame := by
  cases h with
  | refl => rfl
  | addVote hv h =>
    rcases addVote_ok h with ⟨hframe, -⟩ | ⟨vs₁, val, bv, -, -, -, -, -, hframe, -, -, -, rfl⟩
    · exact hframe
    exact record_frame.trans hframe
  | peerMaj23 peerID blockID => exact (setPeerMaj23_spec peerID blockID).1

/-- A majority stays; a new one is for the block id of an added vote. -/
lemma Grows.maj23 (h : Grows c k vs vs') :
    vs'.maj23 = vs.maj23
      ∨ (vs.maj23 = none
        ∧ ∃ v, k v ∧ v.round = vs.round ∧ v.type = vs.signedMsgType
          ∧ vs'.maj23 = some v.blockID) := by
  cases h with
  | refl => exact .inl rfl
  | @addVote _ v _ _ hv h =>
    rcases addVote_ok h with ⟨-, -, hmaj⟩ |
      ⟨vs₁, val, bv, -, -, hround, htype, -, -, -, hmaj, -, rfl⟩
    · exact .inl hmaj
    rcases record_maj23 vs₁ v v.blockID.key val.votingPower bv with hrec | ⟨hnone, hsome, -⟩
    · exact .inl (hrec.trans hmaj)
    exact .inr ⟨hmaj ▸ hnone, v, hv, hround, htype, hsome⟩
  | peerMaj23 peerID blockID => exact .inl (setPeerMaj23_spec peerID blockID).2.1

end VoteSet

-- ==== power

/-- Powers are positive, so nothing is lost in natural numbers. -/
lemma sum_toNat {validators : List Validator}
    (h : ∀ val ∈ validators, 0 < val.votingPower) :
    (((validators.map fun val => val.votingPower.toNat).sum : Nat) : Int)
      = (validators.map Validator.votingPower).sum := by
  rw [cast_list_sum, List.map_map]
  exact congrArg List.sum (map_congr_left fun val hval => Int.toNat_of_nonneg (h val hval).le)

lemma ValidatorSet.powerAt_eq {vals : ValidatorSet} {i : Nat}
    {val : Validator} (h : vals.validators[i]? = some val) :
    (vals.powerAt i : Int) = val.votingPower := by
  unfold powerAt
  rw [h]
  exact Int.toNat_of_nonneg (vals.power_pos val (mem_of_getElem? h)).le

lemma weigh_powerAt_le (vals : ValidatorSet) {A : List Nat}
    (h : A.Nodup) : (weigh vals.powerAt A : Int) ≤ vals.totalVotingPower := by
  have hle := weigh_index_le vals.validators (fun val => val.votingPower.toNat) h
  have hpower : (fun i => (vals.validators[i]?).elim 0
      fun val => val.votingPower.toNat) = vals.powerAt := by
    funext i
    unfold powerAt
    cases vals.validators[i]? <;> rfl
  rw [hpower] at hle
  refine (Int.ofNat_le.mpr hle).trans (le_of_eq ?_)
  exact sum_toNat vals.power_pos

-- ==== counting

lemma getD_set {α : Type} {l : List (Option α)} {i : Nat} {o : Option α} (h : i < l.length)
    (j : Nat) : (l.set i o).getD j none = if j = i then o else l.getD j none := by
  rw [getD_eq_getElem?_getD, getD_eq_getElem?_getD, getElem?_set]
  by_cases hj : j = i
  · rw [if_pos hj.symm, if_pos h, if_pos hj]
    rfl
  rw [if_neg (Ne.symm hj), if_neg hj]

/-- The votes for one block id: each one has its key and satisfies `p`, and
the sum is the power of different validators among them. -/
structure BlockVotes.Counts (p : Nat → Vote → Prop) (vals : ValidatorSet)
    (key : Bytes) (bv : BlockVotes) : Prop where
  length : bv.votes.length = vals.size
  votes : ∀ i v, bv.getByIndex i = some v → v.blockID.key = key ∧ p i v
  sum : ∃ A : List Nat, A.Nodup ∧ bv.sum = weigh vals.powerAt A ∧ ∀ i ∈ A, (bv.getByIndex i).isSome

namespace BlockVotes

variable {p : Nat → Vote → Prop} {vals : ValidatorSet} {key : Bytes} {bv : BlockVotes} {v : Vote}

lemma getByIndex_new (peerMaj23 : Bool) (n i : Nat) :
    (new peerMaj23 n).getByIndex i = none := by
  unfold getByIndex new
  rw [getD_eq_getElem?_getD, getElem?_replicate]
  split
  · rfl
  rfl

lemma counts_new (peerMaj23 : Bool) :
    (new peerMaj23 vals.size).Counts p vals key := by
  refine ⟨length_replicate, fun i v hv => ?_, [], nodup_nil, rfl, fun i hi => absurd hi not_mem_nil⟩
  rw [getByIndex_new] at hv
  cases hv

lemma getByIndex_addVerifiedVote (power : Int) (hlt : v.validatorIndex.toNat < bv.votes.length)
    (hnone : bv.getByIndex v.validatorIndex.toNat = none) (i : Nat) :
    (bv.addVerifiedVote v power).getByIndex i
    = if i = v.validatorIndex.toNat then some v else bv.getByIndex i := by
  unfold addVerifiedVote
  rw [hnone]
  exact getD_set hlt i

/-- More votes, and at least as much power. -/
structure Extends (bv bv' : BlockVotes) : Prop where
  sum : bv.sum ≤ bv'.sum
  votes : ∀ i v, bv.getByIndex i = some v → bv'.getByIndex i = some v

lemma Extends.refl (bv : BlockVotes) : bv.Extends bv :=
  ⟨le_refl _, fun _ _ hv => hv⟩

lemma Extends.addVerifiedVote {power : Int} (hpower : 0 ≤ power) :
    bv.Extends (bv.addVerifiedVote v power) := by
  unfold BlockVotes.addVerifiedVote
  split
  · exact .refl bv
  next hnone =>
  refine ⟨Int.le_add_of_nonneg_right hpower, fun i w hw => ?_⟩
  unfold getByIndex at hnone hw ⊢
  rw [getD_eq_getElem?_getD, getElem?_set]
  split
  · next heq =>
    rw [heq, hw] at hnone
    cases hnone
  exact hw

lemma counts_addVerifiedVote {val : Validator} (h : bv.Counts p vals key)
    (hval : vals.validators[v.validatorIndex.toNat]? = some val)
    (hkey : v.blockID.key = key) (hp : p v.validatorIndex.toNat v) :
    (bv.addVerifiedVote v val.votingPower).Counts p vals key := by
  cases hget : bv.getByIndex v.validatorIndex.toNat with
  | some existing =>
    unfold addVerifiedVote
    rw [hget]
    exact h
  | none =>
    have hlt : v.validatorIndex.toNat < bv.votes.length := by
      rw [h.length]
      exact (List.getElem?_eq_some_iff.mp hval).1
    have hset := getByIndex_addVerifiedVote val.votingPower hlt hget
    have hsum : (bv.addVerifiedVote v val.votingPower).sum = bv.sum + val.votingPower := by
      unfold addVerifiedVote
      rw [hget]
    obtain ⟨A, hnodup, hA, hsome⟩ := h.sum
    refine ⟨?_, fun i w hw => ?_, v.validatorIndex.toNat :: A, ?_, ?_, ?_⟩
    · unfold addVerifiedVote
      rw [hget]
      exact length_set.trans h.length
    · rw [hset] at hw
      split at hw
      · next heq =>
        cases hw
        subst heq
        exact ⟨hkey, hp⟩
      exact h.votes i w hw
    · refine nodup_cons.mpr ⟨fun hmem => ?_, hnodup⟩
      have := hsome _ hmem
      rw [hget] at this
      cases this
    · rw [hsum, hA, weigh_cons, cast_add, ValidatorSet.powerAt_eq hval]
      ring
    intro i hi
    rw [hset]
    split
    · rfl
    next hne => exact hsome i ((mem_cons.mp hi).resolve_left hne)

end BlockVotes

structure VoteSet.Counts (c : Crypto) (P : Vote → Prop) (vs : VoteSet) :
    Prop where
  blocks : ∀ key bv, vs.votesByBlock.lookup key = some bv → bv.Counts (vs.Admits c P) vs.valSet key
  majority : ∀ id, vs.maj23 = some id → ∃ bv i v, vs.votesByBlock.lookup id.key = some bv
    ∧ vs.quorum ≤ bv.sum ∧ bv.getByIndex i = some v ∧ v.blockID = id

namespace VoteSet

variable {c : Crypto} {P P' : Vote → Prop} {vs vs' : VoteSet}

lemma Counts.mono (h : Counts c P vs) (hP : ∀ v, P v → P' v) :
    Counts c P' vs := by
  refine ⟨fun key bv hbv => ?_, h.majority⟩
  have hcounts := h.blocks key bv hbv
  refine ⟨hcounts.length, fun i v hv => ?_, hcounts.sum⟩
  obtain ⟨hkey, hadm⟩ := hcounts.votes i v hv
  exact ⟨hkey, hadm.signed, hadm.height, hadm.round, hadm.type, hP v hadm.mem⟩

lemma counts_new (chainID : String) (height round : Int)
    (type : SignedMsgType) (vals : ValidatorSet) (ext : Bool) :
    Counts c P (new chainID height round type vals ext) := by
  refine ⟨fun key bv hbv => ?_, fun id hid => ?_⟩
  · cases hbv
  cases hid

lemma blocks_congr {key : Bytes} {bv : BlockVotes}
    (hframe : vs'.frame = vs.frame)
    (h : bv.Counts (vs.Admits c P) vs.valSet key) :
    bv.Counts (vs'.Admits c P) vs'.valSet key := by
  rw [frame_valSet hframe]
  refine ⟨h.length, fun i v hv => ?_, h.sum⟩
  obtain ⟨hkey, hadm⟩ := h.votes i v hv
  exact ⟨hkey, hadm.congr hframe⟩

lemma quorum_congr (hframe : vs'.frame = vs.frame) :
    vs'.quorum = vs.quorum := by
  unfold quorum
  rw [frame_valSet hframe]

/-- The votes for a block after a step: more of them, and at least as much
power. -/
lemma Grows.extends {k : Vote → Prop} {key : Bytes} {bv : BlockVotes}
    (h : Grows c k vs vs') (hbv : vs.votesByBlock.lookup key = some bv) :
    ∃ bv', vs'.votesByBlock.lookup key = some bv' ∧ bv.Extends bv' := by
  cases h with
  | refl => exact ⟨bv, hbv, .refl bv⟩
  | addVote hv hadd =>
    rcases addVote_ok hadd with ⟨-, hvotes, -⟩ |
      ⟨vs₁, val, bv₁, hval, -, -, -, -, -, hvotes, -, hbv₁, rfl⟩
    · exact ⟨bv, by rw [hvotes]; exact hbv, .refl bv⟩
    rw [record_lookup]
    split
    · next hkey =>
      subst hkey
      have hsame : bv = bv₁ := by
        rcases hbv₁ with hbv₁ | ⟨hnone, -⟩
        · exact some.inj (hbv.symm.trans hbv₁)
        rw [hnone] at hbv
        cases hbv
      subst hsame
      have hpos := vs.valSet.power_pos val (mem_of_getElem? hval)
      exact ⟨_, rfl, .addVerifiedVote hpos.le⟩
    exact ⟨bv, by rw [hvotes]; exact hbv, .refl bv⟩
  | peerMaj23 peerID blockID =>
    rcases (setPeerMaj23_spec peerID blockID).2.2 key with hsame | ⟨bv', hbv', hset⟩ | ⟨hnone, -⟩
    · exact ⟨bv, hsame.trans hbv, .refl bv⟩
    · obtain rfl := some.inj (hbv.symm.trans hbv')
      exact ⟨_, hset, le_refl _, fun _ _ hv => hv⟩
    rw [hnone] at hbv
    cases hbv

section

variable (h : Counts c P vs)

include h

lemma Counts.blocks_grows (hg : Grows c P vs vs') :
    ∀ key bv, vs'.votesByBlock.lookup key = some bv →
      bv.Counts (vs.Admits c P) vs.valSet key := by
  intro key bv hbv
  cases hg with
  | refl => exact h.blocks key bv hbv
  | @addVote _ v _ _ hv hadd =>
    rcases addVote_ok hadd with ⟨-, hvotes, -⟩ |
      ⟨vs₁, val, bv₁, hval, hheight, hround, htype, hsigned, -, hvotes, -, hbv₁, rfl⟩
    · rw [hvotes] at hbv
      exact h.blocks key bv hbv
    rw [record_lookup] at hbv
    split at hbv
    · next hkey =>
      cases hbv
      have hold : bv₁.Counts (vs.Admits c P) vs.valSet key := by
        rcases hbv₁ with hbv₁ | ⟨-, rfl⟩
        · exact hkey ▸ h.blocks _ bv₁ hbv₁
        exact BlockVotes.counts_new false
      exact BlockVotes.counts_addVerifiedVote hold hval hkey.symm
        ⟨⟨val, hval, hsigned⟩, hheight, hround, htype, hv⟩
    rw [hvotes] at hbv
    exact h.blocks key bv hbv
  | peerMaj23 peerID blockID =>
    rcases (setPeerMaj23_spec peerID blockID).2.2 key with hsame | ⟨bv', hbv', hset⟩ | ⟨-, hset⟩
    · exact h.blocks key bv (hsame.symm.trans hbv)
    · obtain rfl := some.inj (hset.symm.trans hbv)
      have hcounts := h.blocks key bv' hbv'
      exact { hcounts with }
    obtain rfl := some.inj (hset.symm.trans hbv)
    exact BlockVotes.counts_new true

/-- The vote that makes a majority is among those counted for it. -/
lemma Counts.majority_new (hg : Grows c P vs vs') {id : BlockID}
    (hnone : vs.maj23 = none) (hid : vs'.maj23 = some id) :
    ∃ bv i v, vs'.votesByBlock.lookup id.key = some bv ∧ vs.quorum ≤ bv.sum
      ∧ bv.getByIndex i = some v ∧ v.blockID = id := by
  have hblocks := h.blocks_grows hg
  cases hg with
  | refl =>
    rw [hnone] at hid
    cases hid
  | @addVote _ v _ _ hv hadd =>
    rcases addVote_ok hadd with ⟨-, -, hmaj⟩ |
      ⟨vs₁, val, bv, hval, -, -, -, -, hframe, -, hmaj, -, rfl⟩
    · rw [hmaj, hnone] at hid
      cases hid
    rcases record_maj23 vs₁ v v.blockID.key val.votingPower bv
      with hrec | ⟨-, hsome, hbelow, hquorum⟩
    · rw [hrec, hmaj, hnone] at hid
      cases hid
    obtain rfl := some.inj (hsome.symm.trans hid)
    have hlookup : (vs₁.record v v.blockID.key val.votingPower bv).votesByBlock.lookup v.blockID.key
        = some (bv.addVerifiedVote v val.votingPower) := by
      rw [record_lookup, if_pos rfl]
    have hlength := (hblocks _ _ hlookup).length
    rw [← quorum_congr hframe]
    refine ⟨_, v.validatorIndex.toNat, v, hlookup, hquorum, ?_, rfl⟩
    -- the sum has changed, so the vote was added
    cases hget : bv.getByIndex v.validatorIndex.toNat with
    | some existing =>
      unfold BlockVotes.addVerifiedVote at hquorum
      rw [hget] at hquorum
      exact absurd hquorum (not_le_of_gt hbelow)
    | none =>
      have hlt : v.validatorIndex.toNat < bv.votes.length := by
        unfold BlockVotes.addVerifiedVote at hlength
        rw [hget] at hlength
        rw [← List.length_set, hlength]
        exact (List.getElem?_eq_some_iff.mp hval).1
      rw [BlockVotes.getByIndex_addVerifiedVote _ hlt hget, if_pos rfl]
  | peerMaj23 peerID blockID =>
    rw [(setPeerMaj23_spec peerID blockID).2.1, hnone] at hid
    cases hid

lemma Counts.grows (hg : Grows c P vs vs') : Counts c P vs' := by
  have hframe := hg.frame
  refine ⟨fun key bv hbv => blocks_congr hframe (h.blocks_grows hg key bv hbv), fun id hid => ?_⟩
  rw [quorum_congr hframe]
  rcases hg.maj23 with hsame | ⟨hnone, -⟩
  · rw [hsame] at hid
    obtain ⟨bv, i, v, hbv, hquorum, hget, hv⟩ := h.majority id hid
    obtain ⟨bv', hbv', hext⟩ := hg.extends hbv
    exact ⟨bv', i, v, hbv', hquorum.trans hext.sum, hext.votes i v hget, hv⟩
  exact h.majority_new hg hnone hid

/-- A majority is a quorum of signed votes for its block id. -/
lemma Counts.quorum_of_majority (hP : ∀ v, P v → v.blockID.sized)
    {id : BlockID} (hid : vs.maj23 = some id) :
    ∃ A : List Nat, A.Nodup ∧ vs.quorum ≤ weigh vs.valSet.powerAt A
    ∧ ∀ i ∈ A, ∃ v, v.blockID = id ∧ vs.Admits c P i v := by
  obtain ⟨bv, j, w, hbv, hquorum, hget, rfl⟩ := h.majority id hid
  have hcounts := h.blocks _ bv hbv
  obtain ⟨A, hnodup, hsum, hA⟩ := hcounts.sum
  refine ⟨A, hnodup, hsum ▸ hquorum, fun i hi => ?_⟩
  obtain ⟨v, hv⟩ := isSome_iff_exists.mp (hA i hi)
  obtain ⟨hkey, hadm⟩ := hcounts.votes i v hv
  have hw := (hcounts.votes j w hget).2.mem
  exact ⟨v, BlockID.key_inj (hP v hadm.mem) (hP w hw) hkey, hadm⟩

end

end VoteSet

-- ==== the votes of a height

namespace HeightVoteSet

variable {c : Crypto} {k P P' : Vote → Prop} {hvs hvs' : HeightVoteSet}

/-- What can happen to the votes of a height. -/
inductive Grows (c : Crypto) (k : Vote → Prop) (hvs : HeightVoteSet) :
    HeightVoteSet → Prop
  | setRound {hvs' : HeightVoteSet} {round : Int}
      (h : hvs.setRound round = .ok hvs') : Grows c k hvs hvs'
  | addVote {hvs' : HeightVoteSet} {v : Vote} {peerID : PeerID}
      {ext added : Bool} {e : Option VoteError} (hv : k v)
      (h : hvs.addVote c v peerID ext = .ok (hvs', added, e)) :
      Grows c k hvs hvs'
  | peerMaj23 (round : Int) (type : SignedMsgType) (peerID : PeerID) (blockID : BlockID) :
      Grows c k hvs (hvs.setPeerMaj23 round type peerID blockID)

lemma Grows.mono (h : Grows c k hvs hvs') (hk : ∀ v, k v → P v) :
    Grows c P hvs hvs' := by
  cases h with
  | setRound h => exact .setRound h
  | addVote hv h => exact .addVote (hk _ hv) h
  | peerMaj23 round type peerID blockID => exact .peerMaj23 _ _ _ _

/-- The vote set of a round and type as it is when its round begins. -/
def fresh (hvs : HeightVoteSet) (round : Int) (type : SignedMsgType) :
    VoteSet :=
  VoteSet.new hvs.chainID hvs.height round type hvs.valSet
    (type = .precommit && hvs.extensionsEnabled)

/-- The vote set of a round and type; an empty one if the round is not
tracked yet. -/
def view (hvs : HeightVoteSet) (round : Int) (type : SignedMsgType) : VoteSet :=
  (hvs.getVoteSet round type).getD (hvs.fresh round type)

def frame (hvs : HeightVoteSet) : String × Int × ValidatorSet × Bool :=
  (hvs.chainID, hvs.height, hvs.valSet, hvs.extensionsEnabled)

lemma fresh_congr (h : hvs'.frame = hvs.frame) (round : Int)
    (type : SignedMsgType) : hvs'.fresh round type = hvs.fresh round type := by
  injection h with hchain hrest
  injection hrest with hheight hrest
  injection hrest with hvals hext
  unfold fresh
  rw [hchain, hheight, hvals, hext]

lemma majority_eq (hvs : HeightVoteSet) (round : Int) (type : SignedMsgType) :
    twoThirdsMajority (hvs.getVoteSet round type)
      = (hvs.view round type).maj23 := by
  unfold view twoThirdsMajority
  cases hvs.getVoteSet round type with
  | none => rfl
  | some vs => rfl

-- The rounds that are added are empty, so the view does not change.

lemma view_addRound {r₀ : Int} (h : hvs.roundVoteSets.lookup r₀ = none)
    (round : Int) (type : SignedMsgType) :
    (hvs.addRound r₀).view round type = hvs.view round type := by
  unfold view
  have hframe : (hvs.addRound r₀).frame = hvs.frame := rfl
  rw [fresh_congr hframe]
  unfold getVoteSet addRound
  by_cases hround : round = r₀
  · subst hround
    rw [lookup_insert, h]
    cases type with
    | unknown => rfl
    | prevote => rfl
    | precommit =>
      unfold newRound fresh
      simp
    | proposal => rfl
  rw [lookup_insert_ne hround]

lemma ensureRounds_spec (n : Nat) (r : Int) (hvs : HeightVoteSet) :
    (hvs.ensureRounds r n).frame = hvs.frame ∧ ∀ round type,
    (hvs.ensureRounds r n).view round type = hvs.view round type := by
  induction n generalizing r hvs with
  | zero => exact ⟨rfl, fun _ _ => rfl⟩
  | succ n ih =>
    unfold ensureRounds
    cases hlookup : hvs.roundVoteSets.lookup r with
    | some rvs => exact ih (r + 1) hvs
    | none =>
      obtain ⟨hframe, hview⟩ := ih (r + 1) (hvs.addRound r)
      exact ⟨hframe.trans rfl, fun round type =>
        (hview round type).trans (view_addRound hlookup round type)⟩

variable {r : Int} {t : SignedMsgType}

lemma setRound_spec (h : hvs.setRound r = .ok hvs') : hvs'.frame = hvs.frame
    ∧ ∀ round type, hvs'.view round type = hvs.view round type := by
  unfold setRound at h
  dsimp only at h
  split at h
  · cases h
  cases h
  exact ensureRounds_spec _ _ hvs

lemma catchup_spec {v : Vote} {peerID : PeerID}
    (h : hvs.catchup v peerID = some hvs') :
    hvs'.frame = hvs.frame
      ∧ ∀ round type, hvs'.view round type = hvs.view round type := by
  unfold catchup at h
  split at h
  · cases h
    exact ⟨rfl, fun _ _ => rfl⟩
  next hnone =>
  dsimp only at h
  split at h
  · cases h
    exact ⟨rfl, fun round type => view_addRound hnone round type⟩
  cases h

/-- Replacing a vote set changes the view of its round and type only. -/
lemma view_setVoteSet {vs vs' : VoteSet}
    (h : hvs.getVoteSet r t = some vs) (round : Int) (type : SignedMsgType) :
    (hvs.setVoteSet r t vs').view round type
    = if round = r ∧ type = t then vs' else hvs.view round type := by
  unfold getVoteSet at h
  split at h
  · cases h
  next rvs hlookup =>
  unfold setVoteSet
  rw [hlookup]
  unfold view getVoteSet
  by_cases hround : round = r
  · subst hround
    rw [lookup_insert, hlookup]
    cases t with
    | unknown => cases h
    | proposal => cases h
    | prevote =>
      cases type with
      | prevote => rw [if_pos ⟨rfl, rfl⟩]; rfl
      | precommit | unknown
      | proposal => rw [if_neg fun h => by cases h.2]; rfl
    | precommit =>
      cases type with
      | precommit => rw [if_pos ⟨rfl, rfl⟩]; rfl
      | prevote | unknown | proposal => rw [if_neg fun h => by cases h.2]; rfl
  rw [lookup_insert_ne hround, if_neg fun h => hround h.1]
  rfl

lemma frame_setVoteSet {vs : VoteSet} :
    (hvs.setVoteSet r t vs).frame = hvs.frame := by
  unfold setVoteSet
  split
  · rfl
  rfl

lemma view_of_getVoteSet {vs : VoteSet}
    (h : hvs.getVoteSet r t = some vs) : hvs.view r t = vs := by
  unfold view
  rw [h]
  rfl

/-- Adding a vote: rounds may be added, and the vote's own set does one
step. -/
lemma addVote_ok {v : Vote} {peerID : PeerID} {ext added : Bool} {e : Option VoteError}
    (h : hvs.addVote c v peerID ext = .ok (hvs', added, e)) :
    hvs'.frame = hvs.frame ∧ ((∀ round type, hvs'.view round type = hvs.view round type) ∨
    ∃ vs' added' e', (hvs.view v.round v.type).addVote c v = .ok (vs', added', e')
      ∧ ∀ round type, hvs'.view round type = if round = v.round ∧ type = v.type then vs'
          else hvs.view round type) := by
  unfold addVote at h
  split at h
  · cases h
  split at h
  · cases h
    exact ⟨rfl, .inl fun _ _ => rfl⟩
  split at h
  · cases h
    exact ⟨rfl, .inl fun _ _ => rfl⟩
  next hvs₁ hcatchup =>
  obtain ⟨hframe, hview⟩ := catchup_spec hcatchup
  split at h
  · cases h
  next vs hget =>
  split at h
  · cases h
  next vs' added' e' hadd =>
  cases h
  refine ⟨frame_setVoteSet.trans hframe, .inr ⟨vs', added, e, ?_, fun round type => ?_⟩⟩
  · rw [← hview, view_of_getVoteSet hget]
    exact hadd
  rw [view_setVoteSet hget, hview]

lemma Grows.frame (h : Grows c k hvs hvs') : hvs'.frame = hvs.frame := by
  cases h with
  | setRound h => exact (setRound_spec h).1
  | addVote hv h => exact (addVote_ok h).1
  | peerMaj23 round type peerID blockID =>
    unfold setPeerMaj23
    split
    · rfl
    exact frame_setVoteSet

lemma Grows.view (h : Grows c k hvs hvs') (round : Int)
    (type : SignedMsgType) :
    VoteSet.Grows c k (hvs.view round type) (hvs'.view round type) := by
  cases h with
  | setRound h =>
    rw [(setRound_spec h).2]
    exact .refl
  | addVote hv h =>
    rcases (addVote_ok h).2 with hsame | ⟨vs', _, _, hadd, hview⟩
    · rw [hsame]
      exact .refl
    rw [hview]
    split
    · next heq =>
      obtain ⟨rfl, rfl⟩ := heq
      exact .addVote hv hadd
    exact .refl
  | peerMaj23 r t peerID blockID =>
    unfold setPeerMaj23
    split
    · exact .refl
    next vs hget =>
    rw [view_setVoteSet hget]
    split
    · next heq =>
      obtain ⟨rfl, rfl⟩ := heq
      rw [view_of_getVoteSet hget]
      exact .peerMaj23 peerID blockID
    exact .refl

lemma Grows.majority (h : Grows c k hvs hvs') {round : Int}
    {type : SignedMsgType} {id : BlockID}
    (hid : twoThirdsMajority (hvs.getVoteSet round type) = some id) :
    twoThirdsMajority (hvs'.getVoteSet round type) = some id := by
  rw [majority_eq] at hid ⊢
  rcases (h.view round type).maj23 with hsame | ⟨hnone, -⟩
  · rw [hsame]
    exact hid
  rw [hnone] at hid
  cases hid

/-- The votes of a height are counted right, and each set is the one of its
round and type. -/
structure Counts (c : Crypto) (P : Vote → Prop) (hvs : HeightVoteSet) :
    Prop where
  frames : ∀ round type, (hvs.view round type).frame
    = (hvs.chainID, hvs.height, round, type, hvs.valSet)
  sets : ∀ round type, (hvs.view round type).Counts c P

lemma Counts.mono (h : hvs.Counts c P) (hP : ∀ v, P v → P' v) :
    hvs.Counts c P' :=
  ⟨h.frames, fun round type => (h.sets round type).mono hP⟩

lemma counts_new (chainID : String) (height : Int) (vals : ValidatorSet)
    (ext : Bool) : (new chainID height vals ext).Counts c P := by
  have hview : ∀ round type, (new chainID height vals ext).view round type
        = VoteSet.new chainID height round type vals (type = .precommit && ext) := by
    intro round type
    unfold new
    rw [view_addRound (lookup_empty _)]
    rfl
  refine ⟨fun round type => ?_, fun round type => ?_⟩
  · rw [hview]
    rfl
  rw [hview]
  exact VoteSet.counts_new _ _ _ _ _ _

lemma Counts.grows (h : hvs.Counts c P) (hg : Grows c P hvs hvs') :
    hvs'.Counts c P := by
  refine ⟨fun round type => ?_, fun round type => (h.sets round type).grows (hg.view round type)⟩
  have hframe := hg.frame
  injection hframe with hchain hrest
  injection hrest with hheight hrest
  injection hrest with hvals _
  rw [(hg.view round type).frame, h.frames, hchain, hheight, hvals]

/-- A majority is more than two thirds of the power, of validators who
signed a vote for its block id. -/
lemma Counts.quorum_of_majority (h : hvs.Counts c P)
    (hP : ∀ v, P v → v.blockID.sized) {round : Int} {type : SignedMsgType}
    {id : BlockID}
    (hid : twoThirdsMajority (hvs.getVoteSet round type) = some id) :
    ∃ A : List Nat, A.Nodup
      ∧ 2 * hvs.valSet.totalVotingPower < 3 * weigh hvs.valSet.powerAt A
      ∧ ∀ i ∈ A, ∃ val v, hvs.valSet.validators[i]? = some val
        ∧ c.SignedBy hvs.chainID val v ∧ P v ∧ v.type = type
        ∧ v.height = hvs.height ∧ v.round = round ∧ v.blockID = id := by
  rw [majority_eq] at hid
  obtain ⟨hchain, hheight, hround, htype, hvals⟩ := frame_inv (h.frames round type)
  obtain ⟨A, hnodup, hquorum, hA⟩ := (h.sets round type).quorum_of_majority hP hid
  unfold quorum at hquorum
  rw [hvals] at hquorum
  refine ⟨A, hnodup, by omega, fun i hi => ?_⟩
  obtain ⟨v, hv, hadm⟩ := hA i hi
  obtain ⟨val, hval, hsigned⟩ := hadm.signed
  rw [hvals] at hval
  rw [hchain] at hsigned
  exact ⟨val, v, hval, hsigned, hadm.mem, hadm.type.trans htype,
    hadm.height.trans hheight, hadm.round.trans hround, hv⟩

end HeightVoteSet

end HetuEngine.Comet
