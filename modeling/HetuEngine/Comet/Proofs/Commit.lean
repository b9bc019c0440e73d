/-
Commits made from votes verify.

Every vote that a set holds, canonical or for a block, passed the checks when
it was added (`Seated`); and once there is a majority, the canonical votes
contain it (`Backed`): its votes are copied over the others when it is found,
and from then on a vote for it is replaced by none.

# The slots of a commit

A slot that is not absent is a canonical vote without its extension, which is
not signed. So it verifies, and `GetVote` gives it back; votes for other
blocks become absent slots, which do not count. The vote set that is made
from the commit has one vote for each validator, so only one block can have
the quorum.
-/
import HetuEngine.Comet.Proofs.Verify
import HetuEngine.Comet.Proofs.VoteSet

namespace HetuEngine.Comet

open Lib Lib.Weight List Bool VoteSet Commit BlockID Nat BlockVotes ExtendedCommitSig

-- ==== what a set keeps

variable {votes : List (Option Vote)} {o : Option Vote}

lemma lt_of_getD_some {i : Nat} {v : Vote}
    (h : votes.getD i none = some v) : i < votes.length := by
  by_contra hge
  rw [getD_eq_default _ _ (Nat.le_of_not_lt hge)] at h
  cases h

lemma getD_set_some {i j : Nat} {v w : Vote}
    (h : (votes.set i (some v)).getD j none = some w) :
    votes.getD j none = some w ∨ (j = i ∧ w = v) := by
  rw [getD_eq_getElem?_getD, getElem?_set] at h
  by_cases hij : i = j
  · rw [if_pos hij] at h
    split at h
    · exact .inr ⟨hij.symm, (Option.some.inj h).symm⟩
    cases h
  rw [if_neg hij] at h
  exact .inl h

lemma BlockVotes.getByIndex_added {bv : BlockVotes} {v w : Vote}
    {power : Int} {i : Nat}
    (h : (bv.addVerifiedVote v power).getByIndex i = some w) :
    bv.getByIndex i = some w ∨ (i = v.validatorIndex.toNat ∧ w = v) := by
  unfold addVerifiedVote at h
  split at h
  · exact .inl h
  exact getD_set_some h

namespace VoteSet

variable {c : Crypto} {P : Vote → Prop} {q : Nat → Vote → Prop}
  {vs vs₁ vs' : VoteSet} {v w : Vote} {conflicting : Option Vote}

/-- Every vote of the set, canonical or for a block, satisfies `q`. -/
structure Holds (q : Nat → Vote → Prop) (vs : VoteSet) : Prop where
  votes : ∀ i v, vs.getByIndex i = some v → q i v
  blocks : ∀ key bv, vs.votesByBlock.lookup key = some bv → ∀ i v, bv.getByIndex i = some v → q i v

variable {key : Bytes} {power : Int} {bv : BlockVotes} {i : Nat} {e : Option VoteError}

lemma Holds.mono {q' : Nat → Vote → Prop} (h : vs.Holds q)
    (hq : ∀ i v, q i v → q' i v) : vs.Holds q' :=
  ⟨fun i v hv => hq i v (h.votes i v hv),
    fun key bv hbv i v hv => hq i v (h.blocks key bv hbv i v hv)⟩

lemma holds_new (chainID : String) (height round : Int)
    (type : SignedMsgType) (vals : ValidatorSet) (ext : Bool) :
    (new chainID height round type vals ext).Holds q := by
  refine ⟨fun i w hw => ?_, fun key bv hbv => ?_⟩
  · obtain ⟨bv, hbv, -⟩ := (consistent_new chainID height round type vals ext).1.recorded i w hw
    cases hbv
  cases hbv

lemma getByIndex_place (hplace : vs.place v key power = .ok (vs₁, conflicting))
    (h : vs₁.getByIndex i = some w) :
    vs.getByIndex i = some w ∨ (i = v.validatorIndex.toNat ∧ w = v) := by
  rcases place_cases hplace with rfl | ⟨_, _, -, rfl⟩
  · exact .inl h
  exact getD_set_some h

lemma getByIndex_of_record
    (h : (vs.record v key power bv).getByIndex i = some w) :
    vs.getByIndex i = some w
      ∨ (bv.addVerifiedVote v power).getByIndex i = some w := by
  unfold record at h
  dsimp only at h
  split at h
  · unfold getByIndex at h ⊢
    unfold BlockVotes.getByIndex
    rw [getD_eq_getElem?_getD, getElem?_zipWith] at h
    rw [getD_eq_getElem?_getD, getD_eq_getElem?_getD]
    split at h
    · next new old hnew hold =>
      rw [hnew, hold]
      cases new with
      | none => exact .inl h
      | some u => exact .inr h
    cases h
  exact .inl h

lemma holds_addVote (h : vs.Holds q)
    (hq : ∀ val, vs.checkVote c v = .ok val → q v.validatorIndex.toNat v)
    {added : Bool} (hadd : vs.addVote c v = .ok (vs', added, e)) :
    vs'.Holds q := by
  rcases addVote_cases hadd with rfl | ⟨val, vs₁, conflicting, hcheck, hplace, hrest⟩
  · exact h
  have hv := hq val hcheck
  have hvotes : ∀ i w, vs₁.getByIndex i = some w → q i w := by
    intro i w hw
    rcases getByIndex_place hplace hw with hw | ⟨rfl, rfl⟩
    · exact h.votes i w hw
    exact hv
  have hblocks := (place_ok hplace).2.1
  rcases hrest with rfl | ⟨bv, htracked, rfl⟩
  · refine ⟨hvotes, fun key bv hbv => ?_⟩
    rw [hblocks] at hbv
    exact h.blocks key bv hbv
  have hbv : ∀ i w, (bv.addVerifiedVote v val.votingPower).getByIndex i = some w → q i w := by
    intro i w hw
    rcases getByIndex_added hw with hw | ⟨rfl, rfl⟩
    · rcases tracked_eq_some htracked with hlook | ⟨-, rfl⟩
      · rw [hblocks] at hlook
        exact h.blocks _ bv hlook i w hw
      rw [getByIndex_new] at hw
      cases hw
    exact hv
  refine ⟨fun i w hw => ?_, fun key bv' hbv' => ?_⟩
  · rcases getByIndex_of_record hw with hw | hw
    · exact hvotes i w hw
    exact hbv i w hw
  rw [record_lookup] at hbv'
  split at hbv'
  · cases hbv'
    exact hbv
  rw [hblocks] at hbv'
  exact h.blocks key bv' hbv'

lemma holds_setPeerMaj23 (h : vs.Holds q) (peerID : PeerID)
    (blockID : BlockID) : (vs.setPeerMaj23 peerID blockID).Holds q := by
  refine ⟨fun i w hw => ?_, fun key bv hbv i w hw => ?_⟩
  · unfold getByIndex at hw
    rw [(setPeerMaj23_rest peerID blockID).1] at hw
    exact h.votes i w hw
  rcases (setPeerMaj23_spec peerID blockID).2.2 key with hsame | ⟨bv', hbv', hset⟩ | ⟨-, hset⟩
  · exact h.blocks key bv (hsame.symm.trans hbv) i w hw
  · obtain rfl := Option.some.inj (hset.symm.trans hbv)
    exact h.blocks key bv' hbv' i w hw
  obtain rfl := Option.some.inj (hset.symm.trans hbv)
  rw [getByIndex_new] at hw
  cases hw

/-- The canonical votes contain the majority. -/
structure Backed (vs : VoteSet) : Prop where
  length : vs.votes.length = vs.valSet.size
  majority : ∀ id, vs.maj23 = some id → ∃ A : List Nat, A.Nodup ∧ vs.quorum ≤ weigh
    vs.valSet.powerAt A ∧ ∀ i ∈ A, ∃ w, vs.getByIndex i = some w ∧ w.blockID.key = id.key

/-- A vote may take an empty slot, or any slot if it is for the majority. -/
lemma backed_set {votesBitArray : List Bool} {sum : Int} (h : vs.Backed) (hown : ∀ w id,
    vs.getByIndex v.validatorIndex.toNat = some w → vs.maj23 = some id → v.blockID.key = id.key) :
    Backed { vs with
      votes := vs.votes.set v.validatorIndex.toNat (some v)
      votesBitArray, sum } := by
  refine ⟨?_, fun id hid => ?_⟩
  · rw [length_set]
    exact h.length
  obtain ⟨A, hnodup, hquorum, hA⟩ := h.majority id hid
  refine ⟨A, hnodup, hquorum, fun i hi => ?_⟩
  obtain ⟨w, hw, hkey⟩ := hA i hi
  unfold getByIndex at hw ⊢
  rw [getD_eq_getElem?_getD, getElem?_set]
  by_cases hi : v.validatorIndex.toNat = i
  · rw [if_pos hi, hi, if_pos (lt_of_getD_some hw)]
    exact ⟨v, rfl, hown w id (hi ▸ hw) hid⟩
  rw [if_neg hi]
  exact ⟨w, hw, hkey⟩

lemma backed_place (h : vs.Backed)
    (hplace : vs.place v v.blockID.key power = .ok (vs₁, conflicting)) :
    vs₁.Backed := by
  unfold place at hplace
  split at hplace
  · split at hplace
    · cases hplace
    split at hplace
    · next hmaj =>
      cases hplace
      refine backed_set h fun w id _ hid => ?_
      rw [hid] at hmaj
      have hmaj : id.key = v.blockID.key := by simpa using hmaj
      exact hmaj.symm
    cases hplace
    exact h
  next hvote =>
  cases hplace
  refine backed_set h fun w id hw _ => ?_
  cases hvote.symm.trans hw

/-- When the majority is found, its votes are copied over the others. -/
lemma backed_record (h : vs.Backed)
    (hcounts : (bv.addVerifiedVote v power).Counts q vs.valSet v.blockID.key) :
    (vs.record v v.blockID.key power bv).Backed := by
  have hlength : (bv.addVerifiedVote v power).votes.length
      = vs.votes.length := hcounts.length.trans h.length.symm
  unfold record
  dsimp only
  split
  · next hreached =>
    refine ⟨?_, fun id hid => ?_⟩
    · show (zipWith _ _ _).length = _
      rw [length_zipWith, hlength, min_self]
      exact h.length
    obtain rfl := Option.some.inj hid
    obtain ⟨A, hnodup, hsum, hA⟩ := hcounts.sum
    refine ⟨A, hnodup, hsum ▸ hreached.2.1, fun i hi => ?_⟩
    obtain ⟨w, hw⟩ := Option.isSome_iff_exists.mp (hA i hi)
    refine ⟨w, ?_, (hcounts.votes i w hw).1⟩
    unfold getByIndex
    unfold BlockVotes.getByIndex at hw
    have hlt := lt_of_getD_some hw
    rw [getD_eq_getElem _ _ hlt] at hw
    rw [getD_eq_getElem _ _ (by simp [hlength ▸ hlt, hlt]), getElem_zipWith, hw]
    rfl
  exact ⟨h.length, h.majority⟩

-- ---- one call

lemma place_extensionsEnabled
    (h : vs.place v key power = .ok (vs₁, conflicting)) :
    vs₁.extensionsEnabled = vs.extensionsEnabled := by
  rcases place_cases h with rfl | ⟨_, _, -, rfl⟩
  · rfl
  rfl

lemma record_extensionsEnabled : (vs.record v key power bv).extensionsEnabled
    = vs.extensionsEnabled := by
  unfold record
  dsimp only
  split
  · rfl
  rfl

/-- Validator `i` cast the vote, and it passed the checks. -/
structure Seated (c : Crypto) (P : Vote → Prop) (vs : VoteSet) (i : Nat) (v : Vote) : Prop where
  index : v.validatorIndex = i
  admits : Admits c P vs i v
  address : ∃ val, vs.valSet.validators[i]? = some val ∧ v.validatorAddress = val.address
  plain : vs.extensionsEnabled = false → v.extension = [] ∧ v.extensionSignature = []

lemma Seated.congr (h : Seated c P vs i v) (hframe : vs'.frame = vs.frame)
    (hext : vs'.extensionsEnabled = vs.extensionsEnabled) :
    Seated c P vs' i v := by
  refine ⟨h.index, h.admits.congr hframe, ?_, ?_⟩
  · rw [frame_valSet hframe]
    exact h.address
  rw [hext]
  exact h.plain

lemma seated_of_checkVote {val : Validator} (hP : P v)
    (h : vs.checkVote c v = .ok val) :
    vs.Seated c P v.validatorIndex.toNat v := by
  obtain ⟨hindex, hval, ⟨hheight, hround, htype⟩, haddress, -, -, hplain⟩ := checkVote_inv h
  obtain ⟨-, -, -, -, hsigned⟩ := checkVote_ok h
  exact ⟨(Int.toNat_of_nonneg hindex).symm, ⟨⟨val, hval, hsigned⟩, hheight, hround, htype, hP⟩,
    ⟨val, hval, haddress⟩, hplain⟩

/-- What a set that was started as `start` keeps, whatever strays. -/
structure Sound (c : Crypto) (P : Vote → Prop) (start vs : VoteSet) : Prop where
  frame : vs.frame = start.frame
  ext : vs.extensionsEnabled = start.extensionsEnabled
  counts : vs.Counts c P
  holds : vs.Holds (start.Seated c P)
  backed : vs.Backed

variable {start : VoteSet}

lemma sound_addVote (h : Sound c P start vs) (hP : P v) {added : Bool}
    (hadd : vs.addVote c v = .ok (vs', added, e)) : Sound c P start vs' := by
  have hgrows : Grows c P vs vs' := .addVote hP hadd
  have hcounts := h.counts.grows hgrows
  have hholds : vs'.Holds (start.Seated c P) :=
    holds_addVote h.holds (fun val hcheck =>
      (seated_of_checkVote hP hcheck).congr h.frame.symm h.ext.symm) hadd
  have hframe := hgrows.frame
  rcases addVote_cases hadd with rfl | ⟨val, vs₁, conflicting, -, hplace, hrest⟩
  · exact h
  have hbacked := backed_place h.backed hplace
  have hext := place_extensionsEnabled hplace
  rcases hrest with rfl | ⟨bv, -, rfl⟩
  · exact ⟨hframe.trans h.frame, hext.trans h.ext, hcounts, hholds, hbacked⟩
  refine ⟨hframe.trans h.frame, record_extensionsEnabled.trans (hext.trans h.ext), hcounts, hholds,
    ?_⟩
  refine backed_record hbacked (frame_valSet record_frame ▸ hcounts.blocks _ _ ?_)
  rw [record_lookup, if_pos rfl]

lemma sound_setPeerMaj23 (h : Sound c P start vs) (peerID : PeerID)
    (blockID : BlockID) :
    Sound c P start (vs.setPeerMaj23 peerID blockID) := by
  have hgrows : Grows c P vs (vs.setPeerMaj23 peerID blockID) := .peerMaj23 peerID blockID
  obtain ⟨hframe, hmaj, -⟩ := @setPeerMaj23_spec vs peerID blockID
  obtain ⟨hvotes, -, -, hext⟩ := @setPeerMaj23_rest vs peerID blockID
  have hvals := frame_valSet hframe
  refine ⟨hframe.trans h.frame, hext.trans h.ext, h.counts.grows hgrows,
    holds_setPeerMaj23 h.holds peerID blockID, ?_, fun id hid => ?_⟩
  · rw [hvotes, hvals]
    exact h.backed.length
  rw [hmaj] at hid
  rw [hvals, quorum_congr hframe]
  unfold getByIndex
  rw [hvotes]
  exact h.backed.majority id hid

lemma sound_new (chainID : String) (height round : Int)
    (type : SignedMsgType) (vals : ValidatorSet) (ext : Bool) :
    Sound c P (new chainID height round type vals ext)
      (new chainID height round type vals ext) := by
  have hshaped := (consistent_new chainID height round type vals ext).2
  exact ⟨rfl, rfl, counts_new chainID height round type vals ext,
    holds_new chainID height round type vals ext, hshaped.votes_length, fun id hid => by cases hid⟩

-- ---- whole runs

lemma addVote_total (vs : VoteSet) (v : Vote) :
    ∃ vs' added e, vs.addVote c v = .ok (vs', added, e) := by
  cases hcheck : vs.checkVote c v with
  | error e =>
    refine ⟨vs, false, e, ?_⟩
    unfold addVote
    rw [hcheck]
  | ok val =>
    rcases place_of_checkVote hcheck with ⟨-, hplace⟩ | ⟨existing, -, -, hplace⟩
    · obtain ⟨bv, hbv⟩ : ∃ bv, vs.tracked v.blockID.key none = some bv := by
        unfold tracked
        split
        all_goals exact ⟨_, rfl⟩
      obtain ⟨e, hadd, -⟩ := addVote_recorded hcheck hplace hbv
      exact ⟨_, _, e, hadd⟩
    cases hbv : tracked _ v.blockID.key (some existing) with
    | some bv =>
      obtain ⟨e, hadd, -⟩ := addVote_recorded hcheck hplace hbv
      exact ⟨_, _, e, hadd⟩
    | none =>
      obtain ⟨e, hadd⟩ := addVote_untracked hcheck hplace hbv
      exact ⟨_, _, e, hadd⟩

/-- The calls run to the end, and what a set keeps holds there. -/
lemma calls_sound {xs : List Call} (hP : ∀ v, Call.addVote v ∈ xs → P v)
    (h : Sound c P start vs) :
    ∃ vs', vs.calls c xs = .ok vs' ∧ Sound c P start vs' := by
  induction xs generalizing vs with
  | nil => exact ⟨vs, rfl, h⟩
  | cons x xs ih =>
    have hrest : ∀ v, Call.addVote v ∈ xs → P v := fun v hv => hP v (mem_cons_of_mem _ hv)
    cases x with
    | addVote v =>
      obtain ⟨vs₁, added, e, hadd⟩ := addVote_total (c := c) vs v
      have hsound := sound_addVote h (hP v mem_cons_self) hadd
      unfold calls
      rw [call_addVote hadd]
      exact ih hrest hsound
    | setPeerMaj23 peerID blockID => exact ih hrest (sound_setPeerMaj23 h peerID blockID)

end VoteSet

-- ==== the slots of a commit

def Vote.bare (v : Vote) : Vote := { v with extension := [], extensionSignature := [] }

def Vote.slot (v : Vote) (flag : BlockIDFlag) : ExtendedCommitSig :=
  ⟨⟨flag, v.validatorAddress, v.timestamp, v.signature⟩, v.extension, v.extensionSignature⟩

/-- The slot of a canonical vote in a commit for `id`. -/
def slotOf (id : BlockID) : Option Vote → ExtendedCommitSig
  | none => newExtendedCommitSigAbsent
  | some v =>
    if v.blockID.isComplete then
      if v.blockID = id then v.slot .commit else newExtendedCommitSigAbsent
    else v.slot .nil

lemma slotOf_some (id : BlockID) (v : Vote) : slotOf id (some v) = if v.blockID.isComplete then
        if v.blockID = id then v.slot .commit
        else newExtendedCommitSigAbsent
      else v.slot .nil := rfl

lemma BlockID.isZero_of_not_complete {id : BlockID} (h : id.wellFormed = true)
    (hc : id.isComplete = false) : id.isZero = true := by
  unfold wellFormed at h
  simpa [hc] using h

lemma commitSlot_eq (id : BlockID)
    (h : ∀ v, o = some v → v.blockID.wellFormed = true) :
    commitSlot id o = .ok (slotOf id o) := by
  cases o with
  | none => rfl
  | some v =>
    have hwf := h v rfl
    unfold commitSlot extendedCommitSigOf commitSigOf
    rw [slotOf_some]
    by_cases hcomplete : v.blockID.isComplete = true
    · simp only [hcomplete, if_true]
      by_cases hid : v.blockID = id
      · simp [hid, Vote.slot]
      simp [hid]
    have hzero := isZero_of_not_complete hwf (eq_false_of_ne_true hcomplete)
    simp [hcomplete, hzero, Vote.slot]

lemma commitSlots_eq (id : BlockID)
    (h : ∀ v, some v ∈ votes → v.blockID.wellFormed = true) :
    commitSlots id votes = .ok (votes.map (slotOf id)) := by
  induction votes with
  | nil => rfl
  | cons o votes ih =>
    unfold commitSlots
    rw [commitSlot_eq id fun v hv => h v (hv ▸ mem_cons_self),
      ih fun v hv => h v (mem_cons_of_mem _ hv)]
    rfl

/-- A slot is absent, or it is that of the vote with the flag of its
block. -/
lemma slotOf_cases (id : BlockID) (o : Option Vote) :
    slotOf id o = newExtendedCommitSigAbsent
      ∨ ∃ v, o = some v
        ∧ ((slotOf id o = v.slot .commit ∧ v.blockID = id
          ∧ v.blockID.isComplete = true)
          ∨ (slotOf id o = v.slot .nil ∧ v.blockID.isComplete = false)) := by
  cases o with
  | none => exact .inl rfl
  | some v =>
    rw [slotOf_some]
    by_cases hcomplete : v.blockID.isComplete = true
    · rw [if_pos hcomplete]
      by_cases hid : v.blockID = id
      · rw [if_pos hid]
        exact .inr ⟨v, rfl, .inl ⟨rfl, hid, hcomplete⟩⟩
      rw [if_neg hid]
      exact .inl rfl
    rw [if_neg hcomplete]
    exact .inr ⟨v, rfl, .inr ⟨rfl, by simpa using hcomplete⟩⟩

variable {extEnabled : Bool}

lemma ensureExtensions_ok {sigs : List ExtendedCommitSig}
    (h : ∀ ecs ∈ sigs, ecs.ensureExtension extEnabled = .ok ()) :
    ExtendedCommit.ensureExtensions extEnabled sigs = .ok () := by
  induction sigs with
  | nil => rfl
  | cons ecs sigs ih =>
    obtain ⟨hecs, hsigs⟩ := forall_mem_cons.mp h
    unfold ExtendedCommit.ensureExtensions
    rw [hecs]
    exact ih hsigs

lemma Vote.fields_of_validateBasic {v : Vote} (h : v.validateBasic = true) :
    v.blockID.wellFormed = true ∧ v.validatorAddress.length = addressSize
    ∧ v.signature.length ≠ 0 ∧ v.signature.length ≤ maxSignatureSize := by
  unfold validateBasic at h
  simp only [and_eq_true, decide_eq_true_eq] at h
  exact ⟨h.1.1.1.1.1.2, h.1.1.1.1.2, h.1.1.2, h.1.2⟩

variable {id : BlockID}

lemma BlockID.isComplete_of_not_zero (h : id.wellFormed = true)
    (hz : id.isZero = false) : id.isComplete = true := by
  unfold wellFormed at h
  simpa [hz] using h

/-- The slot of a vote whose extension is as the parameters want it passes
the check of extensions. -/
lemma ensureExtension_slotOf (h : ∀ v, o = some v → v.validateBasic = true
    ∧ (extEnabled = true → v.blockID.isZero = false → v.extensionSignature ≠ [])
    ∧ (extEnabled = false → v.extension = [] ∧ v.extensionSignature = [])) :
    (slotOf id o).ensureExtension extEnabled = .ok () := by
  rcases slotOf_cases id o with hslot | ⟨v, hv, ⟨hslot, -, hcomplete⟩ | ⟨hslot, hcomplete⟩⟩
  · rw [hslot]
    cases extEnabled with
    | true => rfl
    | false => rfl
  · obtain ⟨-, hon, hoff⟩ := h v hv
    rw [hslot]
    unfold ensureExtension Vote.slot
    cases extEnabled with
    | true =>
      have hzero : v.blockID.isZero = false := by
        cases hz : v.blockID.isZero with
        | false => rfl
        | true =>
          rw [isZero_iff.mp hz] at hcomplete
          cases hcomplete
      simp [hon rfl hzero]
    | false =>
      obtain ⟨hext, hsig⟩ := hoff rfl
      simp [hext, hsig]
  obtain ⟨hbasic, -, hoff⟩ := h v hv
  have hzero := isZero_of_not_complete (Vote.fields_of_validateBasic hbasic).1 hcomplete
  obtain ⟨hext, hsig⟩ : v.extension = [] ∧ v.extensionSignature = [] := by
    simpa [hzero] using (and_eq_true_iff.mp hbasic).2
  rw [hslot]
  unfold ensureExtension Vote.slot
  cases extEnabled with
  | true | false => simp [hext, hsig]

-- ---- the commit of a set

namespace VoteSet

/-- The commit that a set with the majority `id` makes. -/
def madeCommit (vs : VoteSet) (id : BlockID) : Commit where
  height := vs.height
  round := vs.round
  blockID := id
  signatures := vs.votes.map fun o => (slotOf id o).toCommitSig

section Made

variable {c : Crypto} {P : Vote → Prop} {start vs : VoteSet} {id : BlockID} {ap : ABCIParams}

lemma exists_getByIndex {v : Vote} (h : some v ∈ vs.votes) :
    ∃ i, vs.getByIndex i = some v := by
  obtain ⟨i, hi⟩ := mem_iff_getElem?.mp h
  refine ⟨i, ?_⟩
  unfold getByIndex
  rw [getD_eq_getElem?_getD, hi]
  rfl

/-- What the parameters ask of a vote. -/
def Carries (ap : ABCIParams) (height : Int) (v : Vote) : Prop :=
  v.validateBasic = true ∧ (ap.voteExtensionsEnabled height = .ok true →
        v.blockID.isZero = false → v.extensionSignature ≠ [])

lemma makeExtendedCommit_ok (h : Sound c (Carries ap start.height) start vs)
    (htype : start.signedMsgType = .precommit) (hheight : 0 < start.height)
    (hplain : ap.voteExtensionsEnabled start.height = .ok false →
      start.extensionsEnabled = false)
    (hid : vs.maj23 = some id) :
    ∃ ec, vs.makeExtendedCommit ap = .ok ec
      ∧ ec.toCommit = vs.madeCommit id := by
  obtain ⟨-, hheight', -, htype', -⟩ := frame_inv h.frame
  have hcarries : ∀ v, some v ∈ vs.votes → ∃ i, start.Seated c (Carries ap start.height) i v := by
    intro v hv
    obtain ⟨i, hi⟩ := exists_getByIndex hv
    exact ⟨i, h.holds.votes i v hi⟩
  have hslots : commitSlots id vs.votes = .ok (vs.votes.map (slotOf id)) := by
    refine commitSlots_eq id fun v hv => ?_
    obtain ⟨i, hseated⟩ := hcarries v hv
    exact (Vote.fields_of_validateBasic hseated.admits.mem.1).1
  obtain ⟨extEnabled, henabled⟩ : ∃ extEnabled,
      ap.voteExtensionsEnabled start.height = .ok extEnabled := by
    unfold ABCIParams.voteExtensionsEnabled
    rw [if_neg (by omega)]
    split
    all_goals exact ⟨_, rfl⟩
  have hensure : ExtendedCommit.ensureExtensions extEnabled
      (vs.votes.map (slotOf id)) = .ok () := by
    refine ensureExtensions_ok fun ecs hecs => ?_
    obtain ⟨o, ho, rfl⟩ := mem_map.mp hecs
    refine ensureExtension_slotOf fun v hv => ?_
    obtain ⟨i, hseated⟩ := hcarries v (hv ▸ ho)
    refine ⟨hseated.admits.mem.1, fun hon => ?_, fun hoff => ?_⟩
    · exact hseated.admits.mem.2 (hon ▸ henabled)
    exact hseated.plain (hplain (hoff ▸ henabled))
  refine ⟨⟨vs.height, vs.round, id, vs.votes.map (slotOf id)⟩, ?_, ?_⟩
  · unfold makeExtendedCommit
    simp [htype', htype, hid, hslots, hheight', henabled, hensure]
  unfold ExtendedCommit.toCommit madeCommit
  rw [map_map]
  rfl

/-- A slot of the commit that is not absent: the vote it is made of, which
`GetVote` gives back without its extension. -/
lemma getVote_madeCommit (h : Sound c P start vs)
    (hP : ∀ v, P v → v.validateBasic = true)
    (htype : start.signedMsgType = .precommit) {i : Nat} {sig : CommitSig}
    (hsig : (vs.madeCommit id).signatures[i]? = some sig)
    (hflag : sig.blockIDFlag ≠ .absent) :
    ∃ v, vs.getByIndex i = some v ∧ start.Seated c P i v
      ∧ (vs.madeCommit id).getVote i = .ok v.bare ∧ sig.signature = v.signature
      ∧ sig.validatorAddress = v.validatorAddress := by
  have hsig' := hsig
  unfold madeCommit at hsig'
  rw [getElem?_map] at hsig'
  obtain ⟨o, ho, rfl⟩ := Option.map_eq_some_iff.mp hsig'
  have hget : ∀ v, o = some v → vs.getByIndex i = some v := by
    rintro v rfl
    unfold getByIndex
    rw [getD_eq_getElem?_getD, ho]
    rfl
  obtain ⟨-, hheight, hround, -, -⟩ := frame_inv h.frame
  have hfields : ∀ v, start.Seated c P i v → v.type = .precommit
      ∧ v.height = vs.height ∧ v.round = vs.round ∧ v.validatorIndex = i := fun v hv =>
    ⟨hv.admits.type.trans htype, hv.admits.height.trans hheight.symm,
      hv.admits.round.trans hround.symm, hv.index⟩
  rcases slotOf_cases id o with hslot | ⟨v, hv, hcases⟩
  · rw [hslot] at hflag
    exact absurd rfl hflag
  have hseated := h.holds.votes i v (hget v hv)
  obtain ⟨ht, hh, hr, hi⟩ := hfields v hseated
  obtain ⟨flag, hslot, hblock⟩ : ∃ flag, slotOf id o = v.slot flag
      ∧ (v.slot flag).toCommitSig.blockID id = .ok v.blockID := by
    rcases hcases with ⟨hslot, hblock, -⟩ | ⟨hslot, hcomplete⟩
    · exact ⟨.commit, hslot, congrArg Except.ok hblock.symm⟩
    have hzero := isZero_iff.mp (isZero_of_not_complete
      (Vote.fields_of_validateBasic (hP v hseated.admits.mem)).1
      hcomplete)
    exact ⟨.nil, hslot, congrArg Except.ok hzero.symm⟩
  refine ⟨v, hget v hv, hseated, ?_, by rw [hslot]; rfl, by rw [hslot]; rfl⟩
  unfold Commit.getVote Vote.bare
  rw [hsig, hslot, ← ht, ← hi, hh, hr]
  dsimp only [madeCommit]
  rw [hblock]
  rfl

lemma slot_of_majority {i : Nat} {v : Vote} (hv : vs.getByIndex i = some v)
    (hblock : v.blockID = id) (hcomplete : id.isComplete = true) :
    ∃ sig, (vs.madeCommit id).signatures[i]? = some sig
      ∧ sig.blockIDFlag = .commit := by
  refine ⟨(slotOf id (some v)).toCommitSig, ?_, ?_⟩
  · unfold madeCommit
    rw [getElem?_map, getElem?_of_getByIndex (lt_of_getD_some hv) hv]
    rfl
  rw [slotOf_some, hblock, if_pos hcomplete, if_pos rfl]
  rfl

end Made

end VoteSet

lemma CommitSig.validateBasic_slotOf
    (h : ∀ v, o = some v → v.validateBasic = true) :
    (slotOf id o).toCommitSig.validateBasic = true := by
  rcases slotOf_cases id o with hslot | ⟨v, hv, hcases⟩
  · rw [hslot]
    rfl
  obtain ⟨-, haddress, hne, hle⟩ := Vote.fields_of_validateBasic (h v hv)
  rcases hcases with ⟨hslot, -, -⟩ | ⟨hslot, -⟩
  all_goals
    rw [hslot]
    simp [validateBasic, Vote.slot, haddress, hle, hne]

-- ==== the set made from a commit

def Commit.slot (commit : Commit) (i : Nat) : Option Vote :=
  commit.signatures[i]?.bind fun sig =>
    if sig.blockIDFlag = .absent then none else (commit.getVote i).toOption

namespace VoteSet

section Rebuild

variable {c : Crypto} {vs vs' : VoteSet} {v : Vote} {val : Validator}

/-- The checks of the signatures on a vote that the set makes. -/
def Passes (c : Crypto) (chainID : String) (ext : Bool) (val : Validator) (v : Vote) : Prop :=
  if ext then c.verifyVoteAndExtension chainID val.pubKey v = .ok ()
  else c.verify chainID val.pubKey v = .ok () ∧ v.extension = [] ∧ v.extensionSignature = []

lemma checkVote_of (hindex : 0 ≤ v.validatorIndex)
    (hval : vs.valSet.validators[v.validatorIndex.toNat]? = some val)
    (hheight : v.height = vs.height) (hround : v.round = vs.round)
    (htype : v.type = vs.signedMsgType)
    (haddress : v.validatorAddress = val.address)
    (hlength : v.validatorAddress.length ≠ 0)
    (hnew : vs.getVote v.validatorIndex.toNat v.blockID.key = none)
    (hpass : Passes c vs.chainID vs.extensionsEnabled val v) :
    vs.checkVote c v = .ok val := by
  unfold checkVote ValidatorSet.getByIndex
  simp only [Int.not_lt.mpr hindex, hlength, hheight, hround, htype,
    hval, hnew, if_false, ne_eq, not_true_eq_false, decide_false, Bool.or_self, Bool.false_eq_true]
  rw [if_neg (not_not.mpr haddress)]
  unfold Passes at hpass
  cases hext : vs.extensionsEnabled with
  | true =>
    rw [hext] at hpass
    rw [if_pos rfl, hpass]
  | false =>
    rw [hext] at hpass
    obtain ⟨hverify, hextension, hsignature⟩ := hpass
    rw [hverify, hextension, hsignature]
    rfl

/-- A validator's first vote is added without an error, and it is among the
votes for its block. -/
lemma addVote_first (h : vs.Consistent) (hs : vs.Shaped)
    (hcheck : vs.checkVote c v = .ok val)
    (hempty : vs.getByIndex v.validatorIndex.toNat = none) :
    ∃ vs', vs.addVote c v = .ok (vs', true, none) ∧ vs'.Consistent ∧ vs'.Shaped
      ∧ ∃ bv, vs'.votesByBlock.lookup v.blockID.key = some bv
        ∧ bv.getByIndex v.validatorIndex.toNat = some v := by
  obtain ⟨hval, -⟩ := checkVote_ok hcheck
  have hlt : v.validatorIndex.toNat < vs.votes.length := by
    rw [hs.votes_length]
    exact (List.getElem?_eq_some_iff.mp hval).1
  rcases place_of_checkVote hcheck with ⟨-, hplace⟩ | ⟨existing, hvote, -⟩
  · obtain ⟨bv, htracked, ht⟩ := tracked_first hcheck h hs
    obtain ⟨e, hadd, he⟩ := addVote_recorded hcheck hplace htracked
    obtain rfl := he rfl
    have hp := placed_new h hlt hval hempty
    refine ⟨_, hadd, consistent_record hp ht hs hval rfl rfl h,
      shaped_record hp ht hs hval rfl rfl, _, record_lookup.trans (if_pos rfl), ?_⟩
    rw [(ht.added hval rfl).1, if_pos rfl]
  rw [hempty] at hvote
  cases hvote

/-- What a commit must have for a vote set to be made of it: every slot that
is not absent is a valid vote of the validator of its index. -/
def Rebuildable (c : Crypto) (chainID : String) (vals : ValidatorSet) (commit : Commit) : Prop :=
  ∀ i sig, commit.signatures[i]? = some sig → sig.blockIDFlag ≠ .absent
    → ∃ w val, commit.getVote i = .ok w ∧ w.validateBasic = true ∧ vals.validators[i]? = some val
    ∧ w.validatorAddress = val.address ∧ c.verify chainID val.pubKey w = .ok ()

/-- The set after the first `n` slots were added, of which `slot` says what
vote they hold: it holds these votes, and no others. -/
structure Filled (c : Crypto) (chainID : String) (height round : Int)
    (vals : ValidatorSet) (ext : Bool) (slot : Nat → Option Vote) (n : Nat)
    (vs : VoteSet) : Prop where
  consistent : vs.Consistent
  shaped : vs.Shaped
  frame : vs.frame = (chainID, height, round, .precommit, vals)
  mode : vs.extensionsEnabled = ext
  counts : vs.Counts c fun w => w.blockID.sized
  holds : vs.Holds fun i w => i < n ∧ slot i = some w
  entered : ∀ i w, i < n → slot i = some w →
    ∃ bv, vs.votesByBlock.lookup w.blockID.key = some bv ∧ bv.getByIndex i = some w

/-- A slot's vote that can be added. -/
structure Fits (c : Crypto) (chainID : String) (height round : Int)
    (vals : ValidatorSet) (ext : Bool) (i : Nat) (w : Vote) : Prop where
  type : w.type = .precommit
  height : w.height = height
  round : w.round = round
  index : w.validatorIndex = i
  basic : w.validateBasic = true
  signed : ∃ val, vals.validators[i]? = some val
    ∧ w.validatorAddress = val.address ∧ Passes c chainID ext val w

section Filled

variable {chainID : String} {height round : Int} {vals : ValidatorSet}
  {ext : Bool} {slot : Nat → Option Vote} {n : Nat}

lemma filled_new : Filled c chainID height round vals ext slot 0
    (new chainID height round .precommit vals ext) := by
  obtain ⟨hconsistent, hshaped⟩ := consistent_new chainID height round .precommit vals ext
  have hsound := sound_new (c := c) (P := fun w => w.blockID.sized) chainID
    height round .precommit vals ext
  exact ⟨hconsistent, hshaped, rfl, rfl, hsound.counts,
    holds_new chainID height round .precommit vals ext, fun i w hi => absurd hi (not_lt_zero i)⟩

lemma Filled.skip (h : Filled c chainID height round vals ext slot n vs)
    (hnone : slot n = none) :
    Filled c chainID height round vals ext slot (n + 1) vs := by
  refine { h with
    holds := h.holds.mono fun i w hw => ⟨lt_succ_of_lt hw.1, hw.2⟩
    entered := fun i w hi hw => ?_ }
  rcases Nat.lt_succ_iff_lt_or_eq.mp hi with hlt | rfl
  · exact h.entered i w hlt hw
  rw [hnone] at hw
  cases hw

lemma Filled.add (h : Filled c chainID height round vals ext slot n vs)
    {w : Vote} (hw : slot n = some w)
    (hfits : Fits c chainID height round vals ext n w) :
    ∃ vs', vs.addVote c w = .ok (vs', true, none)
      ∧ Filled c chainID height round vals ext slot (n + 1) vs' := by
  obtain ⟨val, hval, haddress, hpass⟩ := hfits.signed
  obtain ⟨hchain, hheight', hround', htype', hvals⟩ := frame_inv h.frame
  have hn : w.validatorIndex.toNat = n := by
    rw [hfits.index]
    rfl
  -- only earlier slots have entries
  have hempty : vs.getByIndex n = none := by
    cases hget : vs.getByIndex n with
    | none => rfl
    | some u => exact absurd (h.holds.votes n u hget).1 (lt_irrefl n)
  have hnew : vs.getVote n w.blockID.key = none := by
    unfold getVote
    rw [show vs.votes.getD n none = none from hempty]
    cases hbv : vs.votesByBlock.lookup w.blockID.key with
    | none => rfl
    | some bv =>
      show bv.getByIndex n = none
      cases hget : bv.getByIndex n with
      | none => rfl
      | some u => exact absurd (h.holds.blocks _ bv hbv n u hget).1 (lt_irrefl n)
  have hlength : w.validatorAddress.length ≠ 0 := by
    rw [(Vote.fields_of_validateBasic hfits.basic).2.1]
    decide
  have hcheck : vs.checkVote c w = .ok val := by
    refine checkVote_of (by rw [hfits.index]; exact Int.natCast_nonneg n) ?_
      (hfits.height.trans hheight'.symm) (hfits.round.trans hround'.symm)
      (hfits.type.trans htype'.symm) haddress hlength ?_ ?_
    · rw [hn, hvals]
      exact hval
    · rw [hn]
      exact hnew
    rw [hchain, h.mode]
    exact hpass
  rw [← hn] at hempty
  obtain ⟨vs', hadd, hconsistent, hshaped, bv, hbv, hget⟩ :=
    addVote_first h.consistent h.shaped hcheck hempty
  have hsized := Vote.sized_of_validateBasic hfits.basic
  have hgrows : Grows c (fun u => u.blockID.sized) vs vs' := .addVote hsized hadd
  have hmode : vs'.extensionsEnabled = vs.extensionsEnabled := by
    rcases addVote_cases hadd with rfl | ⟨val', vs₁, conflicting, -, hplace, rfl | ⟨bv', -, rfl⟩⟩
    · rfl
    · exact place_extensionsEnabled hplace
    exact record_extensionsEnabled.trans (place_extensionsEnabled hplace)
  refine ⟨vs', hadd, hconsistent, hshaped, hgrows.frame.trans h.frame,
    hmode.trans h.mode, h.counts.grows hgrows, ?_, fun i u hi hu => ?_⟩
  · refine holds_addVote (h.holds.mono fun i u hu => ⟨lt_succ_of_lt hu.1, hu.2⟩)
      (fun _ _ => ?_) hadd
    rw [hn]
    exact ⟨lt_succ_self n, hw⟩
  rcases Nat.lt_succ_iff_lt_or_eq.mp hi with hlt | rfl
  · obtain ⟨bv₀, hbv₀, hget₀⟩ := h.entered i u hlt hu
    obtain ⟨bv₁, hbv₁, hextends⟩ := hgrows.extends hbv₀
    exact ⟨bv₁, hbv₁, hextends.votes i u hget₀⟩
  rw [hw] at hu
  cases hu
  rw [hn] at hget
  exact ⟨bv, hbv, hget⟩

end Filled

-- ---- plain commits

/-- The set after the first `n` slots of a commit. -/
abbrev Rebuilt (c : Crypto) (chainID : String) (vals : ValidatorSet)
    (commit : Commit) (n : Nat) (vs : VoteSet) : Prop :=
  Filled c chainID commit.height commit.round vals false commit.slot n vs

variable {chainID : String} {vals : ValidatorSet} {commit : Commit}

variable {i : Nat} {sig : CommitSig}

lemma slot_present {w : Vote} (hsig : commit.signatures[i]? = some sig)
    (hflag : sig.blockIDFlag ≠ .absent) (hw : commit.getVote i = .ok w) :
    commit.slot i = some w := by
  unfold slot
  rw [hsig, Option.bind_some, if_neg hflag, hw]
  rfl

lemma getVote_fields {w : Vote} (h : commit.getVote i = .ok w) :
    w.type = .precommit ∧ w.height = commit.height ∧ w.round = commit.round
    ∧ w.validatorIndex = i ∧ w.extension = [] ∧ w.extensionSignature = [] := by
  unfold Commit.getVote at h
  split at h
  · cases h
  split at h
  · cases h
  cases h
  exact ⟨rfl, rfl, rfl, rfl, rfl, rfl⟩

/-- A loop over the numbered entries of a list that gets past each of them
gets to the end. -/
lemma zipIdx_loop {α σ ε : Type} {loop : List (α × Nat) → σ → Except ε σ}
    {I : Nat → σ → Prop} {all : List α} (hnil : ∀ s, loop [] s = .ok s)
    (hcons : ∀ a i rest s, all[i]? = some a → I i s →
      ∃ s', loop ((a, i) :: rest) s = loop rest s' ∧ I (i + 1) s')
    {s : σ} (h : I 0 s) :
    ∃ s', loop all.zipIdx s = .ok s' ∧ I all.length s' := by
  suffices hfrom : ∀ rest before s, all = before ++ rest → I before.length s
    → ∃ s', loop (rest.zipIdx before.length) s = .ok s' ∧ I all.length s' from hfrom all [] s rfl h
  intro rest
  induction rest with
  | nil =>
    intro before s hall hI
    rw [hall, append_nil]
    exact ⟨s, hnil s, hI⟩
  | cons a rest ih =>
    intro before s hall hI
    obtain ⟨s', hstep, hI'⟩ := hcons a before.length
      (rest.zipIdx (before.length + 1)) s (by simp [hall]) hI
    rw [zipIdx_cons, hstep]
    have := ih (before ++ [a]) s' (by simp [hall])
    rw [length_append] at this
    exact this hI'

lemma addSigsToVoteSet_ok (hc : Rebuildable c chainID vals commit)
    (h : Rebuilt c chainID vals commit 0 vs) :
    ∃ vs', commit.addSigsToVoteSet c commit.signatures.zipIdx vs = .ok vs'
    ∧ Rebuilt c chainID vals commit commit.signatures.length vs' := by
  refine zipIdx_loop (fun _ => rfl) (fun sig i rest vs hsig h => ?_) h
  by_cases habsent : sig.blockIDFlag = .absent
  · refine ⟨vs, ?_, h.skip ?_⟩
    · rw [addSigsToVoteSet, if_pos habsent]
    unfold slot
    rw [hsig, Option.bind_some, if_pos habsent]
  obtain ⟨w, val, hw, hbasic, hval, haddress, hverify⟩ := hc _ sig hsig habsent
  obtain ⟨htype, hheight, hround, hindex, hext, hextsig⟩ := getVote_fields hw
  obtain ⟨vs₁, hadd, hrebuilt⟩ := h.add (slot_present hsig habsent hw)
    ⟨htype, hheight, hround, hindex, hbasic, val, hval, haddress, hverify, hext, hextsig⟩
  refine ⟨vs₁, ?_, hrebuilt⟩
  rw [addSigsToVoteSet, if_neg habsent]
  simp [hw, hbasic, hadd]

end Rebuild

lemma powerOfVotes_eq_sum {validators : List Validator}
    (hpos : ∀ val ∈ validators, 0 < val.votingPower) (votes : List (Option Vote)) :
    powerOfVotes validators votes = (((validators.zip votes).map fun e =>
        if e.2.isSome then e.1.votingPower.toNat else 0).sum : Nat) := by
  induction validators generalizing votes with
  | nil => rfl
  | cons val validators ih =>
    cases votes with
    | nil => rfl
    | cons vote votes =>
      obtain ⟨hval, hrest⟩ := forall_mem_cons.mp hpos
      rw [zip_cons_cons, map_cons, sum_cons, cast_add, ← ih hrest votes]
      show (if vote.isSome then val.votingPower else 0) + powerOfVotes validators votes = _
      congr 1
      split
      · exact (Int.toNat_of_nonneg hval.le).symm
      rfl

/-- Validators with an entry are at most the power of the votes. -/
lemma weigh_le_powerOfVotes (vals : ValidatorSet)
    (votes : List (Option Vote)) {A : List Nat} (hnodup : A.Nodup)
    (hA : ∀ i ∈ A, (votes.getD i none).isSome) :
    (weigh vals.powerAt A : Int) ≤ powerOfVotes vals.validators votes := by
  rw [powerOfVotes_eq_sum vals.power_pos]
  refine Int.ofNat_le.mpr (le_trans ?_ (weigh_index_le (vals.validators.zip votes)
    (fun e => if e.2.isSome then e.1.votingPower.toNat else 0) hnodup))
  refine sum_le_sum fun i hi => ?_
  obtain ⟨v, hv⟩ := Option.isSome_iff_exists.mp (hA i hi)
  have hlt := lt_of_getD_some hv
  rw [getD_eq_getElem _ _ hlt] at hv
  unfold ValidatorSet.powerAt
  cases hval : vals.validators[i]? with
  | none => exact zero_le _
  | some val =>
    have hzip : (vals.validators.zip votes)[i]? = some (val, some v) := by
      rw [getElem?_zip_eq_some]
      exact ⟨hval, by rw [getElem?_eq_getElem hlt, hv]⟩
    rw [hzip]
    exact le_refl _

/-- One vote for each validator: only one block has the quorum. -/
lemma Filled.majority {c : Crypto} {chainID : String} {height round : Int}
    {vals : ValidatorSet} {ext : Bool} {slot : Nat → Option Vote} {n : Nat}
    {vs : VoteSet} (h : Filled c chainID height round vals ext slot n vs)
    (hsized : id.sized) {A : List Nat} (hnodup : A.Nodup)
    (hquorum : vals.totalVotingPower * 2 / 3 + 1 ≤ weigh vals.powerAt A)
    (hA : ∀ i ∈ A, i < n ∧ ∃ w, slot i = some w ∧ w.blockID = id) :
    vs.maj23 = some id := by
  have hvals : vs.valSet = vals := (frame_inv h.frame).2.2.2.2
  have hq : vs.quorum = vals.totalVotingPower * 2 / 3 + 1 := by
    unfold quorum
    rw [hvals]
  rw [← hq] at hquorum
  have hpos := @quorum_pos vs
  obtain ⟨i₀, hi₀⟩ : ∃ i₀, i₀ ∈ A := by
    cases A with
    | nil =>
      have : vs.quorum ≤ 0 := hquorum
      omega
    | cons i₀ A => exact ⟨i₀, mem_cons_self⟩
  obtain ⟨hi₀', w₀, hw₀, hid₀⟩ := hA i₀ hi₀
  obtain ⟨bv, hbv, -⟩ := h.entered i₀ w₀ hi₀' hw₀
  rw [hid₀] at hbv
  have hentry : ∀ i ∈ A, ∃ w, slot i = some w ∧ w.blockID = id ∧ bv.getByIndex i = some w := by
    intro i hi
    obtain ⟨hi', w, hw, hid⟩ := hA i hi
    obtain ⟨bv', hbv', hget⟩ := h.entered i w hi' hw
    rw [hid, hbv] at hbv'
    cases hbv'
    exact ⟨w, hw, hid, hget⟩
  have hsum : vs.quorum ≤ bv.sum := by
    rw [(h.consistent.tallied _ bv hbv).1, hvals]
    refine hquorum.trans (weigh_le_powerOfVotes vals bv.votes hnodup ?_)
    intro i hi
    obtain ⟨w, -, -, hget⟩ := hentry i hi
    exact Option.isSome_iff_exists.mpr ⟨w, hget⟩
  have hsome := h.consistent.reached.mpr ⟨_, bv, hbv, hsum⟩
  obtain ⟨id', hid'⟩ := Option.isSome_iff_exists.mp hsome
  -- the majority that was found shares a validator with `A`
  obtain ⟨bv', j, u, hbv', hquorum', hu, hblock⟩ := h.counts.majority id' hid'
  have hcounts := h.counts.blocks _ bv' hbv'
  obtain ⟨A', hnodup', hsum', hA'⟩ := hcounts.sum
  rw [hvals] at hsum'
  have hbound : ∀ ks : List Nat, ks.Nodup →
      weigh vals.powerAt ks ≤ vals.totalVotingPower.toNat := by
    intro ks hks
    have := weigh_powerAt_le vals hks
    omega
  obtain ⟨i, hi, hi'⟩ := exists_common hbound hnodup hnodup' (by omega)
  obtain ⟨w, hw, hid, -⟩ := hentry i hi
  obtain ⟨w', hget'⟩ := Option.isSome_iff_exists.mp (hA' i hi')
  have hw' := (h.holds.blocks _ bv' hbv' i w' hget').2
  rw [hw] at hw'
  cases hw'
  have hkey := (hcounts.votes i w hget').1
  have hsized' : id'.sized := hblock ▸ (hcounts.votes j u hu).2.mem
  rw [hid', ← key_inj hsized hsized' (hid ▸ hkey)]

end VoteSet

section

variable {P : Vote → Prop} (hP : ∀ v, P v → v.validateBasic = true)
  {start vs : VoteSet} {id : BlockID}

include hP

/-- A majority that is not for nil is for a complete block id, at a positive
height. -/
lemma VoteSet.Sound.named {c : Crypto} (h : Sound c P start vs)
    (hid : vs.maj23 = some id) (hzero : id.isZero = false) :
    id.isComplete = true ∧ 0 < start.height := by
  obtain ⟨bv, i, v, hbv, -, hget, hblock⟩ := h.counts.majority id hid
  have hv := ((h.counts.blocks _ bv hbv).votes i v hget).2
  have hbasic := hP v hv.mem
  refine ⟨isComplete_of_not_zero
    (hblock ▸ (Vote.fields_of_validateBasic hbasic).1) hzero, ?_⟩
  have hheight := (frame_inv h.frame).2.1
  unfold Vote.validateBasic at hbasic
  simp only [and_eq_true, decide_eq_true_eq] at hbasic
  have hpos := hbasic.1.1.1.1.1.1.1.1.2
  rw [hv.height, hheight] at hpos
  exact hpos

lemma VoteSet.Sound.majority {c : Crypto} (h : Sound c P start vs)
    (hid : vs.maj23 = some id) (hcomplete : id.isComplete = true) :
    ∃ A : List Nat, A.Nodup
      ∧ start.valSet.totalVotingPower * 2 / 3 + 1
        ≤ weigh start.valSet.powerAt A
      ∧ ∀ i ∈ A, ∃ v sig, vs.getByIndex i = some v ∧ v.blockID = id
        ∧ (vs.madeCommit id).signatures[i]? = some sig
        ∧ sig.blockIDFlag = .commit := by
  obtain ⟨A, hnodup, hquorum, hA⟩ := h.backed.majority id hid
  unfold quorum at hquorum
  rw [frame_valSet h.frame] at hquorum
  refine ⟨A, hnodup, hquorum, fun i hi => ?_⟩
  obtain ⟨v, hv, hkey⟩ := hA i hi
  have hblock : v.blockID = id := by
    refine key_inj ?_ ?_ hkey
    · exact Vote.sized_of_validateBasic (hP v (h.holds.votes i v hv).admits.mem)
    refine sized_of_wellFormed ?_
    simp [wellFormed, hcomplete]
  obtain ⟨sig, hsig, hflag⟩ := slot_of_majority hv hblock hcomplete
  exact ⟨v, sig, hv, hblock, hsig, hflag⟩

lemma verifyCommit_madeCommit {c : Verifier} (hc : c.Lawful)
    (hbytes : ∀ chainID v, c.voteSignBytes chainID v.bare
      = c.voteSignBytes chainID v)
    (h : VoteSet.Sound c.toCrypto P start vs)
    (htype : start.signedMsgType = .precommit)
    (hin : start.valSet.ProposerIn) (hid : vs.maj23 = some id)
    (hcomplete : id.isComplete = true) :
    verifyCommit c start.chainID start.valSet id start.height
      (vs.madeCommit id) = .ok () := by
  obtain ⟨-, hheight, -, -, hvals⟩ := frame_inv h.frame
  rw [← hheight]
  have hsize : start.valSet.size = (vs.madeCommit id).signatures.length := by
    show _ = (vs.votes.map _).length
    rw [length_map, h.backed.length, hvals]
  refine verifyCommit_of_signed hc hin hsize ?_ ?_ ?_
  · intro sig hsig
    obtain ⟨o, ho, rfl⟩ := mem_map.mp hsig
    refine CommitSig.validateBasic_slotOf fun v hv => ?_
    obtain ⟨i, hi⟩ := exists_getByIndex (hv ▸ ho)
    exact hP v (h.holds.votes i v hi).admits.mem
  · rintro ⟨sig, i⟩ hmem hflag
    have hflag : sig.blockIDFlag ≠ .absent := by simpa [fullRule] using hflag
    obtain ⟨v, -, hseated, hvote, hsig, -⟩ :=
      getVote_madeCommit h hP htype (mem_zipIdx_iff_getElem?.mp hmem) hflag
    obtain ⟨val, hval, -, hsigned⟩ := hseated.admits.signed
    refine ⟨val, c.voteSignBytes start.chainID v, hval, ?_, ?_⟩
    · unfold voteSignBytes
      rw [hvote]
      show Except.ok _ = _
      rw [hbytes]
    rw [hsig]
    exact hsigned
  obtain ⟨A, hnodup, hquorum, hA⟩ := h.majority hP hid hcomplete
  have htally : (weigh start.valSet.powerAt A : Int)
      ≤ (fullRule start.valSet).tally start.valSet (vs.madeCommit id).signatures.zipIdx := by
    refine weigh_le_tally hnodup fun i hi => ?_
    obtain ⟨v, sig, -, -, hsig, hflag⟩ := hA i hi
    exact ⟨sig, hsig, by simp [fullRule, hflag], by simp [fullRule, hflag]⟩
  omega

lemma rebuildable_madeCommit {c : Crypto}
    (hbytes : ∀ chainID v, c.voteSignBytes chainID v.bare
      = c.voteSignBytes chainID v)
    (h : VoteSet.Sound c P start vs)
    (htype : start.signedMsgType = .precommit) (id : BlockID) :
    VoteSet.Rebuildable c start.chainID start.valSet (vs.madeCommit id) := by
  intro i sig hsig hflag
  obtain ⟨v, -, hseated, hvote, -⟩ := getVote_madeCommit h hP htype hsig hflag
  obtain ⟨val, hval, hkey, hsigned⟩ := hseated.admits.signed
  obtain ⟨val', hval', haddress⟩ := hseated.address
  obtain rfl := Option.some.inj (hval.symm.trans hval')
  refine ⟨v.bare, val, hvote, ?_, hval, haddress, ?_⟩
  · have hvalid := hP v hseated.admits.mem
    unfold Vote.validateBasic at hvalid ⊢
    simp only [and_eq_true] at hvalid ⊢
    refine ⟨hvalid.1, ?_⟩
    split
    · rfl
    rfl
  have hsigned' : c.signed start.chainID val.pubKey v.bare = true := by
    unfold Crypto.signed
    rw [hbytes]
    exact hsigned
  have haddress' : c.address val.pubKey = v.bare.validatorAddress := hkey.trans haddress.symm
  unfold Crypto.verify
  rw [if_neg (not_not.mpr haddress'), hsigned']
  rfl

end

/-- Whatever valid precommits are added, and whatever is claimed: where the
set has a majority for a block, it makes a commit, the commit verifies for
that block, and the vote set made of the commit has the same majority. -/
theorem commit_of_votes_verifies (c : Verifier) (hc : c.Lawful)
    (hbytes : ∀ chainID v, c.voteSignBytes chainID v.bare
      = c.voteSignBytes chainID v)
    (chainID : String) (height round : Int) (vals : ValidatorSet)
    (hin : vals.ProposerIn) (ext : Bool) (ap : ABCIParams)
    (xs : List VoteSet.Call)
    (hbasic : ∀ v, VoteSet.Call.addVote v ∈ xs → v.validateBasic = true)
    (hcarried : ∀ v, VoteSet.Call.addVote v ∈ xs →
      ap.voteExtensionsEnabled height = .ok true → v.blockID.isZero = false →
      v.extensionSignature ≠ [])
    (hplain : ap.voteExtensionsEnabled height = .ok false → ext = false) :
    ∃ vs, (VoteSet.new chainID height round .precommit vals ext).calls
      c.toCrypto xs = .ok vs
      ∧ ∀ id, vs.maj23 = some id → id.isZero = false →
        ∃ ec, vs.makeExtendedCommit ap = .ok ec
          ∧ verifyCommit c chainID vals id height ec.toCommit = .ok ()
          ∧ ∃ vs', ec.toCommit.toVoteSet c.toCrypto chainID vals = .ok vs'
            ∧ vs'.maj23 = some id := by
  have hP : ∀ v, VoteSet.Call.addVote v ∈ xs → VoteSet.Carries ap height v := fun v hv =>
    ⟨hbasic v hv, hcarried v hv⟩
  have hvalid : ∀ v, VoteSet.Carries ap height v → v.validateBasic = true := fun v hv => hv.1
  obtain ⟨vs, hcalls, hsound⟩ := calls_sound (c := c.toCrypto) hP
    (sound_new chainID height round .precommit vals ext)
  refine ⟨vs, hcalls, fun id hid hzero => ?_⟩
  obtain ⟨hcomplete, hheight⟩ := hsound.named hvalid hid hzero
  obtain ⟨ec, hmake, hec⟩ := makeExtendedCommit_ok hsound rfl hheight hplain hid
  refine ⟨ec, hmake, ?_⟩
  rw [hec]
  refine ⟨verifyCommit_madeCommit hvalid hc hbytes hsound rfl hin hid hcomplete, ?_⟩
  obtain ⟨vs', hvs', hrebuilt⟩ := addSigsToVoteSet_ok
    (rebuildable_madeCommit hvalid hbytes hsound rfl id) filled_new
  refine ⟨vs', hvs', ?_⟩
  have hsized : id.sized := by
    refine sized_of_wellFormed ?_
    simp [wellFormed, hcomplete]
  obtain ⟨A, hnodup, hquorum, hA⟩ := hsound.majority hvalid hid hcomplete
  refine hrebuilt.majority hsized hnodup hquorum fun i hi => ?_
  obtain ⟨v, sig, hv, hblock, hsig, hflag⟩ := hA i hi
  have hflag' : sig.blockIDFlag ≠ .absent := by
    rw [hflag]
    exact BlockIDFlag.noConfusion
  obtain ⟨w, hw, -, hvote, -⟩ := getVote_madeCommit hsound hvalid rfl hsig hflag'
  obtain rfl := Option.some.inj (hv.symm.trans hw)
  exact ⟨(List.getElem?_eq_some_iff.mp hsig).1, v.bare, slot_present hsig hflag' hvote, hblock⟩

def sampleVerifier : Verifier where
  toCrypto := sampleCrypto
  keyType _ := .ed25519
  batchAdd _ _ _ _ := true
  batchVerify _ batch := (batch.all fun e => e.2.2 = e.1, batch.map fun e => e.2.2 = e.1)

lemma sampleVerifier_lawful : sampleVerifier.Lawful := by
  refine ⟨fun _ _ _ _ _ => rfl, fun type batch _ _ => ?_⟩
  show (batch.all fun e => e.2.2 = e.1) = true ↔ ∀ e ∈ batch, decide (e.2.2 = e.1) = true
  exact all_eq_true

/-- The stray vote of the second validator after its vote for nil. -/
def dividedThenStray : List VoteSet.Call :=
  divided ++ [.addVote (sampleVote .precommit 0 (sampleID 9) 1)]

theorem commit_of_divided_verifies :
    ∃ vs, (VoteSet.new "hetu" 1 0 .precommit sampleValidators false).calls
      sampleCrypto dividedThenStray = .ok vs
      ∧ ∃ ec, vs.makeExtendedCommit ⟨0⟩ = .ok ec
        ∧ verifyCommit sampleVerifier "hetu" sampleValidators (sampleID 9) 1
          ec.toCommit = .ok ()
        ∧ ∃ vs', ec.toCommit.toVoteSet sampleCrypto "hetu"
          sampleValidators = .ok vs'
          ∧ vs'.maj23 = some (sampleID 9) := by
  have hin : sampleValidators.ProposerIn := by
    intro p hp
    cases hp
    exact ⟨_, mem_cons_of_mem _ mem_cons_self, rfl⟩
  have hbasic : ∀ v, VoteSet.Call.addVote v ∈ dividedThenStray → v.validateBasic = true := by
    intro v hv
    have hmem : v = sampleVote .precommit 0 zero 1 ∨ v = sampleVote .precommit 0
        (sampleID 9) 0 ∨ v = sampleVote .precommit 0 (sampleID 9) 1 := by
      simpa [dividedThenStray, divided] using hv
    rcases hmem with rfl | rfl | rfl
    all_goals decide +kernel
  obtain ⟨vs, hcalls, hvs⟩ := commit_of_votes_verifies sampleVerifier
    sampleVerifier_lawful (fun _ _ => rfl) "hetu" 1 0 sampleValidators hin
    false ⟨0⟩ dividedThenStray hbasic (fun _ _ h => by cases h)
    fun _ => rfl
  refine ⟨vs, hcalls, hvs (sampleID 9) ?_ (by decide +kernel)⟩
  have hmaj : ((new "hetu" 1 0 .precommit sampleValidators
      false).calls sampleCrypto dividedThenStray).toOption.bind maj23
      = some (sampleID 9) := by decide +kernel
  rw [show (new "hetu" 1 0 .precommit sampleValidators false).calls
    sampleCrypto dividedThenStray = .ok vs from hcalls] at hmaj
  exact hmaj

end HetuEngine.Comet
