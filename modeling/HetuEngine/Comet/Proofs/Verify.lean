/-
What the verification of a commit establishes.

`VerifyCommit` looks validators up by the index of the slot and checks every
signature, in one batch or one by one. With a batch verifier that accepts
what single verification accepts (`Lawful`), both mean the same
(`verifyCommit_ok`, `verifyCommit_of_signed`): every slot that is not absent
is signed by the validator of its index, and more than two thirds of the
power is for the block.
-/
import HetuEngine.Comet.Proofs.Light

namespace HetuEngine.Comet

open Lib Lib.Weight ReceivedSet ValidatorSet VerifyRule

/-- The signature of a slot is that of the validator of its index. -/
def Commit.SlotSigned (c : Verifier) (chainID : String)
    (vals : ValidatorSet) (commit : Commit) (sig : CommitSig) (idx : Nat) :
    Prop :=
  ∃ val msg, vals.validators[idx]? = some val ∧ commit.voteSignBytes
    c.toCrypto chainID idx = .ok msg ∧ c.verifySignature val.pubKey msg sig.signature = true

def VerifyRule.tally (rule : VerifyRule) (vals : ValidatorSet) : List (CommitSig × Nat) → Int
  | [] => 0
  | (sig, idx) :: rest =>
    (if rule.ignoreSig sig = false ∧ rule.countSig sig = true then
      (vals.validators[idx]?).elim 0 Validator.votingPower else 0) + rule.tally vals rest

variable {c : Verifier} {chainID : String} {vals : ValidatorSet}
  {commit : Commit} {rule : VerifyRule} {type : KeyType}

lemma signer_byIndex (hindex : rule.lookUpByIndex = true)
    (seen : HashMap Nat Nat) (idx : Nat) (sig : CommitSig) :
    rule.signer vals seen idx sig = match vals.validators[idx]? with
      | none => .error .nilValidator
      | some val => .ok (some (val, seen)) := by
  refine (if_pos hindex).trans ?_
  cases vals.validators[idx]? <;> rfl

def SlotsSigned (c : Verifier) (chainID : String) (vals : ValidatorSet)
    (commit : Commit) (rule : VerifyRule) (slots : List (CommitSig × Nat)) :
    Prop :=
  ∀ e ∈ slots, rule.ignoreSig e.1 = false → commit.SlotSigned c chainID vals e.1 e.2

variable {sig : CommitSig} {idx : Nat} {slots : List (CommitSig × Nat)}

lemma tally_cons_ignored (h : rule.ignoreSig sig = true) :
    rule.tally vals ((sig, idx) :: slots) = rule.tally vals slots := by
  rw [tally, if_neg (by simp [h]), zero_add]

lemma tally_cons {val : Validator} (h : rule.ignoreSig sig = false)
    (hval : vals.validators[idx]? = some val) (power : Int) :
    power + rule.tally vals ((sig, idx) :: slots)
    = (if rule.countSig sig then power + val.votingPower else power) + rule.tally vals slots := by
  rw [tally]
  by_cases hcount : rule.countSig sig = true
  · rw [if_pos ⟨h, hcount⟩, if_pos hcount, hval]
    exact (add_assoc ..).symm
  rw [if_neg fun hand => hcount hand.2, if_neg hcount, zero_add]

lemma tally_eq_weigh (slots : List (CommitSig × Nat)) : rule.tally vals slots
    = (weigh vals.powerAt ((slots.filter fun e =>
        !rule.ignoreSig e.1 && rule.countSig e.1).map Prod.snd) : Int) := by
  induction slots with
  | nil => rfl
  | cons slot slots ih =>
    obtain ⟨sig, idx⟩ := slot
    rw [tally, ih]
    by_cases hcount : rule.ignoreSig sig = false ∧ rule.countSig sig = true
    · have hpower : (vals.validators[idx]?).elim 0 Validator.votingPower
          = (vals.powerAt idx : Int) := by
        cases hval : vals.validators[idx]? with
        | none => simp [powerAt, hval]
        | some val => exact (powerAt_eq hval).symm
      rw [if_pos hcount, List.filter_cons_of_pos (by simp [hcount]),
        List.map_cons, weigh_cons, hpower, Nat.cast_add]
    rw [if_neg hcount, List.filter_cons_of_neg (by simpa using hcount), zero_add]

lemma weigh_le_tally {sigs : List CommitSig} {A : List Nat}
    (hnodup : A.Nodup)
    (hA : ∀ i ∈ A, ∃ sig, sigs[i]? = some sig ∧ rule.ignoreSig sig = false
      ∧ rule.countSig sig = true) :
    (weigh vals.powerAt A : Int) ≤ rule.tally vals sigs.zipIdx := by
  rw [tally_eq_weigh]
  refine Int.ofNat_le.mpr (weigh_le_of_subset hnodup ?_ fun i hi => .inl ?_)
  · exact (zipIdx_snd_nodup sigs).sublist (List.filter_sublist.map Prod.snd)
  obtain ⟨sig, hsig, hignore, hcount⟩ := hA i hi
  refine List.mem_map.mpr ⟨(sig, i), List.mem_filter.mpr ⟨?_, ?_⟩, rfl⟩
  · exact List.mem_zipIdx_iff_getElem?.mpr hsig
  simp [hignore, hcount]

section Loops

variable (hindex : rule.lookUpByIndex = true) (hall : rule.countAllSignatures = true)

include hindex hall

/-- A walk over all slots, by index, has found the validator of each. -/
lemma slotsSigned_of_gather {seen : HashMap Nat Nat} {power : Int}
    {entries : List Checked}
    (h : gather c chainID vals commit rule slots seen power = some entries)
    (hverified : ∀ e ∈ entries, c.verifySignature e.val.pubKey e.msg
      e.sig.signature = true) :
    SlotsSigned c chainID vals commit rule slots
      ∧ checkedPower (rule.counted entries) = rule.tally vals slots := by
  have hposition (idx : Nat) (sig : CommitSig) : rule.position vals idx sig = idx := if_pos hindex
  have hfound (hf : rule.lookUpByIndex = false) : False := by
    rw [hindex] at hf
    cases hf
  constructor
  · intro slot hslot hkept
    obtain ⟨e, he, hsig, hidx⟩ | ⟨hf, -⟩ := gather_all h hall slot hslot hkept
    · have hpicked := gather_picks h e he
      have hval := hpicked.val
      rw [hpicked.position, hposition, hidx] at hval
      rw [← hsig]
      exact ⟨e.val, e.msg, hval, hidx ▸ hpicked.msg, hverified e he⟩
    exact (hfound hf).elim
  clear hverified
  induction slots generalizing seen power entries with
  | nil =>
    cases h
    rfl
  | cons slot slots ih =>
    obtain ⟨sig, idx⟩ := slot
    obtain ⟨hskip | hnone, h⟩ | ⟨val, seen', msg, tail, hkept, hsigner, -, rfl, ⟨hf, -⟩ | htail⟩ :=
      gather_cons h
    · rw [tally_cons_ignored hskip]
      exact ih h
    · exact (hfound (signer_none hnone).1).elim
    · rw [hall] at hf
      cases hf
    have hval := (signer_some hsigner).1
    rw [hposition] at hval
    rw [← zero_add (rule.tally vals _), tally_cons hkept hval, ← ih htail,
      ← zero_add (checkedPower _), ← tallied_add]
    rfl

lemma singleLoop_of_signed
    (hsigned : SlotsSigned c chainID vals commit rule slots)
    (hbasic : ∀ e ∈ slots, e.1.validateBasic = true) (seen : HashMap Nat Nat)
    {power : Int}
    (hpower : rule.votingPowerNeeded < power + rule.tally vals slots) :
    singleLoop c chainID vals commit rule slots seen power = .ok () := by
  induction slots generalizing seen power with
  | nil =>
    unfold singleLoop
    rw [tally, add_zero] at hpower
    rw [if_neg (not_le.mpr hpower)]
  | cons slot slots ih =>
    obtain ⟨sig, idx⟩ := slot
    replace hsigned := List.forall_mem_cons.mp hsigned
    have hrest := List.forall_mem_cons.mp hbasic
    unfold singleLoop
    by_cases hignore : rule.ignoreSig sig = true
    · rw [if_pos hignore]
      rw [tally_cons_ignored hignore] at hpower
      exact ih hsigned.2 hrest.2 seen hpower
    have hignore := Bool.not_eq_true _ ▸ hignore
    obtain ⟨val, msg, hval, hmsg, hverify⟩ := hsigned.1 hignore
    rw [tally_cons hignore hval] at hpower
    have := ih hsigned.2 hrest.2 seen hpower
    simp only [hignore, hrest.1, signer_byIndex hindex,
      hval, hmsg, hverify, hall, Bool.not_true, Bool.false_and, Bool.false_eq_true, if_false]
    exact this

end Loops

-- ==== what is verified

namespace ValidatorSet

def ProposerIn (vals : ValidatorSet) : Prop :=
  ∀ p, vals.proposer = some p → ∃ v ∈ vals.validators, v.pubKey = p.pubKey

lemma findProposer_mem (hne : vals.validators ≠ []) :
    ∃ p ∈ vals.validators, vals.findProposer = some p := by
  unfold findProposer
  cases hvals : vals.validators with
  | nil => exact absurd hvals hne
  | cons v rest =>
    refine List.foldlRecOn rest _ (motive := fun o => ∃ p ∈ v :: rest,
      o = some p) ⟨v, List.mem_cons_self, rfl⟩ ?_
    rintro _ ⟨p, hp, rfl⟩ w hw
    replace hw := List.mem_cons_of_mem v hw
    dsimp only
    split
    · exact ⟨p, hp, rfl⟩
    unfold Validator.compareProposerPriority
    split
    · exact ⟨p, hp, rfl⟩
    split
    · exact ⟨w, hw, rfl⟩
    split
    · exact ⟨p, hp, rfl⟩
    exact ⟨w, hw, rfl⟩

/-- A set with a validator has a proposer, with the key of one of them. -/
lemma getProposer_of_ne (hin : vals.ProposerIn) (hne : vals.validators ≠ []) :
    ∃ p, vals.getProposer = some p
      ∧ ∃ v ∈ vals.validators, v.pubKey = p.pubKey := by
  unfold getProposer
  rw [if_neg hne]
  cases hp : vals.proposer with
  | some p => exact ⟨p, rfl, hin p hp⟩
  | none =>
    obtain ⟨p, hp, hfind⟩ := findProposer_mem hne
    exact ⟨p, hfind, p, hp, rfl⟩

end ValidatorSet

lemma ReceivedSet.keyType_eq {vals : ReceivedSet}
    (h : vals.allKeysHaveSameType c = true) {v w : Validator}
    (hv : v ∈ vals.validators) (hw : w ∈ vals.validators) :
    c.keyType v.pubKey = c.keyType w.pubKey := by
  unfold allKeysHaveSameType at h
  split at h
  · next hnil =>
    rw [hnil] at hv
    cases hv
  next first rest hcons =>
  have hfirst : ∀ x ∈ vals.validators, c.keyType x.pubKey = c.keyType first.pubKey := by
    intro x hx
    rw [hcons] at hx
    rcases List.mem_cons.mp hx with rfl | hx
    · rfl
    simpa using List.all_eq_true.mp h x hx
  rw [hfirst v hv, hfirst w hw]

lemma verifyCommit_ok (hc : c.Lawful) {blockID : BlockID} {height : Int}
    (h : verifyCommit c chainID vals blockID height commit = .ok ()) :
    vals.size = commit.signatures.length ∧ height = commit.height
      ∧ blockID = commit.blockID
      ∧ SlotsSigned c chainID vals commit (fullRule vals)
        commit.signatures.zipIdx
      ∧ vals.totalVotingPower * 2 / 3
        < (fullRule vals).tally vals commit.signatures.zipIdx := by
  unfold verifyCommit at h
  split at h
  · cases h
  next hbasic =>
  obtain ⟨hsize, hheight, hid⟩ := verifyBasicValsAndCommit_eq_ok.mp hbasic
  refine ⟨hsize, hheight, hid, ?_⟩
  obtain ⟨entries, hgather, hverified, hpower⟩ := verifyWith_gather hc h
  obtain ⟨hslots, htally⟩ := slotsSigned_of_gather rfl rfl hgather hverified
  exact ⟨hslots, htally ▸ hpower⟩

/-- A commit of signed slots with enough power for the block passes
`VerifyCommit`. -/
lemma verifyCommit_of_signed (hc : c.Lawful) (hin : vals.ProposerIn)
    (hsize : vals.size = commit.signatures.length)
    (hbasic : ∀ sig ∈ commit.signatures, sig.validateBasic = true)
    (hsigned : SlotsSigned c chainID vals commit (fullRule vals)
      commit.signatures.zipIdx)
    (hpower : vals.totalVotingPower * 2 / 3
      < (fullRule vals).tally vals commit.signatures.zipIdx) :
    verifyCommit c chainID vals commit.blockID commit.height
      commit = .ok () := by
  have htotal := vals.totalVotingPower_nonneg
  have hneeded : 0 ≤ (fullRule vals).votingPowerNeeded := by
    show 0 ≤ vals.totalVotingPower * 2 / 3
    omega
  have hsingle : verifyCommitSingle c chainID vals commit (fullRule vals) = .ok () := by
    refine singleLoop_of_signed rfl rfl hsigned (fun e he => ?_) ∅ ?_
    · exact hbasic e.1 (List.fst_mem_of_mem_zipIdx he)
    rw [zero_add]
    exact hpower
  unfold verifyCommit
  rw [verifyBasicValsAndCommit_eq_ok.mpr ⟨hsize, rfl, rfl⟩]
  unfold verifyWith shouldBatchVerify
  by_cases hlength : commit.signatures.length < batchVerifyThreshold
  · simp only [hlength, if_true]
    exact hsingle
  have hne : vals.validators ≠ [] := by
    intro hnil
    have hzero : vals.size = 0 := by simp [size, hnil]
    unfold batchVerifyThreshold at hlength
    omega
  obtain ⟨p, hp, v, hv, hkey⟩ := getProposer_of_ne hin hne
  simp only [hlength, if_false, hp]
  cases htype : (c.keyType p.pubKey).supportsBatchVerifier with
  | false => exact hsingle
  | true =>
    cases hsame : vals.allKeysHaveSameType c with
    | false => exact hsingle
    | true =>
      refine (verifyCommitBatch_iff hc hp htype hlength ?_ (.inl hneeded) hbasic).mpr hsingle
      intro val hval
      rw [← hkey]
      exact keyType_eq hsame hval hv

end HetuEngine.Comet
