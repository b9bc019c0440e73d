/-
Who is blamed by evidence that is accepted, and when verification panics.

Signatures of the conflicting commit are verified by position; who is blamed
is looked up by the address in the slot, and reported by the key that the
evidence lists. So the one is not always the other.

# What accepted evidence shows

For duplicate votes, `Duplicate` says all of it. For an attack, `Certified`
says which slots are verified with whose key: all slots for the block, by the
conflicting set and, if the heights differ, by the common set. A validator
whose own slot is among them is guilty, and it is blamed rightly exactly if
the key that is listed is that of such a validator.

`verifyAttack` never panics. After it, a name in a slot that nobody has is a
nil validator in the list of the accused, at which sorting looks as soon as
there is another one, and the comparison with the listed validators if as
many are listed.
-/
import HetuEngine.EvidencePool.Chain
import HetuEngine.Comet.Proofs.Verify

namespace HetuEngine.EvidencePool

open Comet Lib List ReceivedSet Node Bool

-- ==== the statement

/-- The chain is made as it must be: its headers name the validators, the
addresses are those of the keys, and each commit is signed in every slot that
is for the block by the validator of that slot. -/
structure Chain.Sound (c : Verifier) (enc : Encoding) (chain : Chain) :
    Prop where
  chainID : ∀ h, (chain.header h).chainID = chain.chainID
  validatorsHash : ∀ h, (chain.header h).validatorsHash = enc.validators (chain.validators h)
  nonempty : ∀ h, (chain.validators h).validators ≠ []
  address : ∀ h, ∀ v ∈ (chain.validators h).validators, v.address = c.address v.pubKey
  size : ∀ h, (chain.commit h).signatures.length = (chain.validators h).size
  signed : ∀ h i sig, (chain.commit h).signatures[i]? = some sig → sig.blockIDFlag = .commit
    → (chain.commit h).SlotSigned c chain.chainID (chain.validators h) sig i

def Node.trustedFor (node : Node) (l : LightClientAttackEvidence) : Option SignedHeader :=
  match node.getSignedHeader l.commonHeight with
  | .error _ => none
  | .ok commonHeader =>
    match node.trustedHeader commonHeader l with
    | .error _ => none
    | .ok trusted => some trusted

def ForBlock (commit : Commit) (i : Nat) (sig : CommitSig) : Prop :=
  commit.signatures[i]? = some sig ∧ sig.blockIDFlag = .commit

/-- The validator signed the block of the commit in slot `i`, with its own
key. -/
def Signs (c : Verifier) (chainID : String) (commit : Commit) (i : Nat) (val : Validator) : Prop :=
  ∃ sig msg, ForBlock commit i sig ∧ commit.voteSignBytes c.toCrypto chainID i = .ok msg
    ∧ c.verifySignature val.pubKey msg sig.signature = true

/-- The validator with the address did what the evidence says: it signed the
conflicting block, in a slot with its name; or both blocks, in its own slot;
or both votes. -/
def Guilty (c : Verifier) (chain : Chain) (node : Node) (address : Bytes) : Evidence → Prop
  | .duplicateVote dve =>
    ∃ val ∈ (chain.validators dve.height).validators,
      c.address val.pubKey = address
      ∧ c.signed chain.chainID val.pubKey dve.voteA = true
      ∧ c.signed chain.chainID val.pubKey dve.voteB = true
      ∧ dve.voteA.height = dve.voteB.height
      ∧ dve.voteA.round = dve.voteB.round
      ∧ dve.voteA.type = dve.voteB.type ∧ dve.voteA.blockID ≠ dve.voteB.blockID
  | .lightClientAttack l =>
    ∃ trusted, node.trustedFor l = some trusted ∧
      if l.conflictingHeaderIsInvalid trusted.header then
        ∃ i sig, ∃ val ∈ (chain.validators l.commonHeight).validators,
          c.address val.pubKey = address ∧ ForBlock l.conflictingBlock.commit i sig
          ∧ sig.validatorAddress = address ∧ Signs c chain.chainID l.conflictingBlock.commit i val
      else
        trusted.commit.round = l.conflictingBlock.commit.round
        ∧ ∃ i val, l.conflictingBlock.validatorSet.validators[i]? = some val
          ∧ c.address val.pubKey = address ∧ Signs c chain.chainID l.conflictingBlock.commit i val
          ∧ Signs c chain.chainID trusted.commit i val

/-- The address is that of a validator of the common set that is named in a
slot for the block, or of one whose own slot is for the block in both
commits. -/
def OwnSlot (chain : Chain) (node : Node) (l : LightClientAttackEvidence)
    (address : Bytes) : Prop :=
  ∃ trusted, node.trustedFor l = some trusted ∧
    if l.conflictingHeaderIsInvalid trusted.header then
      ∃ i sig, ForBlock l.conflictingBlock.commit i sig ∧ sig.validatorAddress = address
        ∧ ∃ val ∈ (chain.validators l.commonHeight).validators, val.address = address
    else
      trusted.commit.round = l.conflictingBlock.commit.round
      ∧ ∃ i sig sig' val, ForBlock l.conflictingBlock.commit i sig ∧ ForBlock trusted.commit i sig'
        ∧ l.conflictingBlock.validatorSet.validators[i]? = some val ∧ val.address = address

/-- The keys that the evidence lists are those of validators with such a
slot. -/
def ListsSigners (c : Crypto) (chain : Chain) (node : Node) : Evidence → Prop
  | .duplicateVote _ => True
  | .lightClientAttack l => ∀ val ∈ l.byzantineValidators.getD [],
      OwnSlot chain node l (c.address val.pubKey)

/-- The slots that are for the block in both commits. -/
def namedTwice (trusted : List CommitSig) (slots : List (CommitSig × Nat)) : List CommitSig :=
  (slots.filter fun slot => slot.1.blockIDFlag
    = .commit && (trusted[slot.2]?).any fun sig => sig.blockIDFlag = .commit).map Prod.fst

/-- All that `verify` checks before the listed validators is in order. -/
structure AttackVerified (c : Verifier) (enc : Encoding) (node : Node)
    (l : LightClientAttackEvidence) (trusted : SignedHeader) : Prop where
  recent : node.Recent (.lightClientAttack l)
  trustedFor : node.trustedFor l = some trusted
  attack : ∃ common vals, node.getSignedHeader l.commonHeight = .ok common ∧ node.loadValidators
    l.commonHeight = some vals ∧ verifyAttack c enc l common trusted vals = .ok ()

/-- If an equivocation passes all other checks, the names in the slots that
are for the block in both commits are those of validators; or there is just
one such slot, and not one validator is listed. -/
def NamesValidators (c : Verifier) (enc : Encoding) (node : Node) : Evidence → Prop
  | .duplicateVote _ => True
  | .lightClientAttack l => ∀ trusted, AttackVerified c enc node l trusted →
      l.conflictingHeaderIsInvalid trusted.header = false →
      trusted.commit.round = l.conflictingBlock.commit.round →
      (∀ sig ∈ namedTwice trusted.commit.signatures l.conflictingBlock.commit.signatures.zipIdx,
        (l.conflictingBlock.validatorSet.getByAddress sig.validatorAddress).isSome = true)
      ∨ ((namedTwice trusted.commit.signatures
            l.conflictingBlock.commit.signatures.zipIdx).length = 1
          ∧ (l.byzantineValidators.getD []).length ≠ 1)

-- ==== what verify looks at

variable {c : Verifier} {enc : Encoding} {chain : Chain} {node : Node}
  {l : LightClientAttackEvidence}

lemma Node.On.trustedFor (hon : node.On chain) {trusted : SignedHeader}
    (h : node.trustedFor l = some trusted) :
    ∃ height, trusted = chain.signedHeader height := by
  unfold Node.trustedFor at h
  split at h
  · cases h
  next common hcommon =>
  split at h
  · cases h
  next trusted' htrusted =>
  cases h
  unfold Node.trustedHeader at htrusted
  split at htrusted
  · cases htrusted
    exact ⟨_, hon.signedHeader hcommon⟩
  split at htrusted
  next hheader =>
    cases htrusted
    exact ⟨_, hon.signedHeader hheader⟩
  · split at htrusted
    · cases htrusted
    next hlatest =>
    split at htrusted
    · cases htrusted
    cases htrusted
    exact ⟨_, hon.signedHeader hlatest⟩

variable {e : EvidenceError}

lemma Node.getSignedHeader_noPanic {height : Int}
    (h : node.getSignedHeader height = .error e) : e.isPanic = false := by
  unfold getSignedHeader at h
  repeat' split at h
  all_goals cases h
  all_goals rfl

lemma Node.trustedHeader_noPanic {common : SignedHeader}
    (h : node.trustedHeader common l = .error e) : e.isPanic = false := by
  unfold trustedHeader at h
  split at h
  · cases h
  split at h
  · cases h
  split at h
  next he =>
    cases h
    exact getSignedHeader_noPanic he
  · split at h
    · cases h
      rfl
    cases h

/-- `verify` of an attack either fails on something it does not find, without
a panic, or ends with `VerifyLightClientAttack`. -/
lemma Node.verify_attack (c : Verifier) (enc : Encoding) (node : Node)
    (l : LightClientAttackEvidence) :
    (∃ common trusted vals, node.Recent (.lightClientAttack l)
      ∧ node.getSignedHeader l.commonHeight = .ok common
      ∧ node.trustedFor l = some trusted
      ∧ node.loadValidators l.commonHeight = some vals
      ∧ node.verify c enc (.lightClientAttack l)
        = verifyLightClientAttack c enc l common trusted vals)
      ∨ ((∀ trusted, ¬AttackVerified c enc node l trusted)
        ∧ ∃ e, node.verify c enc (.lightClientAttack l) = .error e
          ∧ e.isPanic = false) := by
  rcases node.verify_cases c enc (.lightClientAttack l) with
    ⟨hrecent, hverify⟩ | ⟨hold, herr⟩
  · rw [hverify]
    unfold verifyKind
    dsimp only
    cases hcommon : node.getSignedHeader l.commonHeight with
    | error e =>
      refine .inr ⟨fun trusted h => ?_, e, rfl, getSignedHeader_noPanic hcommon⟩
      obtain ⟨_, _, h, -⟩ := h.attack
      rw [hcommon] at h
      cases h
    | ok common =>
      dsimp only
      cases hvals : node.loadValidators l.commonHeight with
      | none =>
        refine .inr ⟨fun trusted h => ?_, _, rfl, rfl⟩
        obtain ⟨_, _, -, h, -⟩ := h.attack
        rw [hvals] at h
        cases h
      | some vals =>
        have hfor : ∀ r, node.trustedHeader common l = r →
            node.trustedFor l = match r with
              | .error _ => none
              | .ok trusted => some trusted := by
          intro r hr
          unfold trustedFor
          rw [hcommon]
          dsimp only
          rw [hr]
        cases htrusted : node.trustedHeader common l with
        | error e =>
          refine .inr ⟨fun trusted h => ?_, e, rfl, trustedHeader_noPanic htrusted⟩
          have h := h.trustedFor
          rw [hfor _ htrusted] at h
          cases h
        | ok trusted => exact .inl ⟨common, trusted, vals, hrecent, rfl, hfor _ htrusted, rfl, rfl⟩
  exact .inr ⟨fun trusted h => hold h.recent, herr⟩

-- ==== who is accused

/-- The accused of an equivocation are those named twice, if the trusted
commit has all the slots. -/
lemma votedTwice_eq {vals : ReceivedSet} {trusted : List CommitSig}
    {slots : List (CommitSig × Nat)}
    (h : ∀ slot ∈ slots, slot.2 < trusted.length) :
    LightClientAttackEvidence.votedTwice vals trusted slots
      = .ok ((namedTwice trusted slots).map fun sig =>
        (vals.getByAddress sig.validatorAddress).map Prod.snd) := by
  induction slots with
  | nil => rfl
  | cons slot slots ih =>
    obtain ⟨hslot, hslots⟩ := forall_mem_cons.mp h
    obtain ⟨sigA, i⟩ := slot
    have ih := ih hslots
    unfold LightClientAttackEvidence.votedTwice namedTwice
    rw [getElem?_eq_getElem hslot, filter_cons]
    dsimp only at hslot ⊢
    rw [getElem?_eq_getElem hslot]
    split
    next hA =>
      rw [if_neg (by simp [hA])]
      exact ih
    next hA =>
    split
    next hB =>
      rw [if_neg (by simp [hB])]
      exact ih
    next hB =>
    rw [if_pos (by simp [not_not.mp hA, not_not.mp hB]), ih]
    rfl

lemma compareValidators_noPanic {found listed : List Validator}
    (h : compareValidators (found.map some) listed = .error e) :
    e.isPanic = false := by
  induction found generalizing listed with
  | nil => cases listed <;> cases h
  | cons val found ih =>
    cases listed with
    | nil => cases h
    | cons b listed =>
      rw [map_cons, compareValidators] at h
      split at h
      · cases h
        rfl
      split at h
      · cases h
        rfl
      exact ih h

def acceptsListed (byzantineValidators : Option (List Validator))
    (validators : List (Option Validator)) : Except EvidenceError Unit :=
  if validators = [] ∧ byzantineValidators ≠ none then .error .expectedNil
  else if validators.length ≠ (byzantineValidators.getD []).length then
    .error (.byzantineCount validators.length (byzantineValidators.getD []).length)
  else compareValidators validators (byzantineValidators.getD [])

variable {byz : Option (List Validator)} {validators : List (Option Validator)}

lemma acceptsListed_noPanic {found : List Validator}
    (h : acceptsListed byz (found.map some) = .error e) :
    e.isPanic = false := by
  unfold acceptsListed at h
  split at h
  · cases h
    rfl
  split at h
  · cases h
    rfl
  exact compareValidators_noPanic h

lemma validateABCIEvidence_eq {commonVals : ReceivedSet} {trusted : SignedHeader}
    (htotal : l.totalVotingPower = commonVals.totalVotingPower) :
    validateABCIEvidence l commonVals trusted
    = match l.getByzantineValidators commonVals trusted with
      | .error p => .error (.panic p)
      | .ok validators => acceptsListed l.byzantineValidators validators :=
  if_neg (not_not.mpr htotal)

lemma exists_map_some (h : ∀ v ∈ validators, v.isSome = true) :
    ∃ found : List Validator, validators = found.map some := by
  induction validators with
  | nil => exact ⟨[], rfl⟩
  | cons v validators ih =>
    obtain ⟨hv, hvs⟩ := forall_mem_cons.mp h
    obtain ⟨val, rfl⟩ := Option.isSome_iff_exists.mp hv
    obtain ⟨found, rfl⟩ := ih hvs
    exact ⟨val :: found, rfl⟩

lemma sorted_noPanic_iff :
    (∀ e, (match LightClientAttackEvidence.sortByVotingPower validators with
      | .error p => Except.error (EvidenceError.panic p)
      | .ok sorted => acceptsListed byz sorted) = .error e →
    e.isPanic = false)
    ↔ (∀ v ∈ validators, v.isSome = true) ∨ (validators.length = 1 ∧ (byz.getD []).length ≠ 1) := by
  unfold LightClientAttackEvidence.sortByVotingPower
  by_cases hall : ∀ v ∈ validators, v.isSome = true
  · refine iff_of_true (fun e he => ?_) (.inl hall)
    obtain ⟨found, rfl⟩ := exists_map_some hall
    have hany : (found.map some).any Option.isNone = false := by simp [any_eq_false]
    split at he
    next herr =>
      split at herr
      · cases herr
      rw [hany] at herr
      cases herr
    next sorted hsorted =>
    split at hsorted
    · cases hsorted
      exact acceptsListed_noPanic he
    rw [hany] at hsorted
    cases hsorted
    exact acceptsListed_noPanic he
  rw [or_iff_right hall]
  have hnone : none ∈ validators := by
    by_contra hno
    refine hall fun v hv => ?_
    cases v with
    | none => exact absurd hv hno
    | some val => rfl
  have hany : validators.any Option.isNone = true := any_eq_true.mpr ⟨none, hnone, rfl⟩
  by_cases hlt : validators.length < 2
  · have hone : validators = [none] := by
      match validators, hnone, hlt with
      | [v], hnone, _ => rw [mem_singleton.mp hnone]
    rw [if_pos hlt, hone]
    dsimp only
    unfold acceptsListed
    rw [if_neg (by simp)]
    by_cases hlen : (byz.getD []).length = 1
    · obtain ⟨b, hb⟩ := length_eq_one_iff.mp hlen
      rw [hb]
      refine iff_of_false (fun h => ?_) (fun h => h.2 rfl)
      have hpanic := h _ rfl
      cases hpanic
    rw [if_pos (by simpa using fun h => hlen h.symm)]
    refine iff_of_true (fun e he => ?_) ⟨rfl, hlen⟩
    cases he
    rfl
  rw [if_neg hlt, if_pos hany]
  refine iff_of_false (fun h => ?_) (fun h => by omega)
  have hpanic := h _ rfl
  cases hpanic

-- ==== what is verified

variable {common trusted : SignedHeader} {vals : ReceivedSet}

/-- What an attack has passed before the listed validators are looked at. -/
structure Attacked (c : Verifier) (l : LightClientAttackEvidence)
    (common trusted : SignedHeader) (vals : ReceivedSet) : Prop where
  jump : common.header.height ≠ l.conflictingBlock.height → verifyCommitLightTrustingAllSignatures
    c trusted.header.chainID vals l.conflictingBlock.commit defaultTrustLevel = .ok ()
  derived : common.header.height = l.conflictingBlock.height →
    l.conflictingHeaderIsInvalid trusted.header = false
  commit : verifyCommitLightAllSignatures c trusted.header.chainID l.conflictingBlock.validatorSet
    l.conflictingBlock.commit.blockID l.conflictingBlock.height l.conflictingBlock.commit = .ok ()
  total : l.totalVotingPower = vals.totalVotingPower

lemma verifyAttack_ok (h : verifyAttack c enc l common trusted vals = .ok ()) :
    Attacked c l common trusted vals := by
  unfold verifyAttack at h
  split at h
  · cases h
  next hblock =>
  split at h
  · cases h
  next htotal =>
  unfold verifyConflictingBlock at hblock
  dsimp only at hblock
  split at hblock
  · cases hblock
  next hjump =>
  split at hblock
  · cases hblock
  next hcommit =>
  refine ⟨fun hne => ?_, fun heq => ?_, hcommit, not_not.mp htotal⟩
  · rw [if_pos hne] at hjump
    split at hjump
    · cases hjump
    next hok => exact hok
  rw [if_neg (not_not.mpr heq)] at hjump
  split at hjump
  · cases hjump
  next hvalid => exact eq_false_iff.mpr hvalid

lemma usable_of_forBlock {rule : VerifyRule} {commit : Commit}
    (hignore : ∀ sig, rule.ignoreSig sig = false → sig.blockIDFlag = .commit)
    (hindex : rule.lookUpByIndex = true → vals.size = commit.signatures.length) :
    ∀ slot ∈ commit.signatures.zipIdx, Usable vals commit rule slot := by
  intro slot hslot
  have hget := List.mem_zipIdx_iff_getElem?.mp hslot
  refine ⟨hget, fun hkept f hf => ?_, fun hlook => ?_⟩
  · rw [hignore _ hkept] at hf
    cases hf
  have hlt := (List.getElem?_eq_some_iff.mp hget).1
  have hsize := hindex hlook
  unfold size at hsize
  omega

lemma verifyAttack_noPanic (hvals : vals.validators ≠ [])
    (hset : l.conflictingBlock.validatorSet.validators ≠ [])
    (h : verifyAttack c enc l common trusted vals = .error e) :
    e.isPanic = false := by
  unfold verifyAttack at h
  dsimp only at h
  split at h
  next hblock =>
    cases h
    unfold verifyConflictingBlock at hblock
    dsimp only at hblock
    split at hblock
    next hjump =>
      cases hblock
      split at hjump
      · split at hjump
        next err hskip =>
          cases hjump
          unfold verifyCommitLightTrustingAllSignatures verifyCommitLightTrustingInternal at hskip
          split at hskip
          · cases hskip
            rfl
          split at hskip
          · cases hskip
            rfl
          split at hskip
          next hwith =>
            cases hskip
            refine verifyWith_noPanic hvals (usable_of_forBlock ?_ ?_) hwith
            · intro sig hkept
              simpa [trustingRule] using hkept
            intro hlook
            cases hlook
          · cases hskip
        · cases hjump
      split at hjump
      · cases hjump
        rfl
      cases hjump
    · split at hblock
      next err hcommit =>
        cases hblock
        unfold verifyCommitLightAllSignatures verifyCommitLightInternal at hcommit
        split at hcommit
        next hbasic =>
          unfold verifyBasicValsAndCommit at hbasic
          cases hcommit
          repeat' split at hbasic
          all_goals cases hbasic
          all_goals rfl
        next hbasic =>
        have hsize := (verifyBasicValsAndCommit_eq_ok.mp hbasic).1
        refine verifyWith_noPanic hset (usable_of_forBlock ?_ ?_) hcommit
        · intro sig hkept
          simpa [lightRule] using hkept
        exact fun _ => hsize
      · cases hblock
  · repeat' split at h
    all_goals cases h
    all_goals rfl

variable {i : Nat} {sig : CommitSig}

section

variable (hc : c.Lawful) (h : Attacked c l common trusted vals)
    (hslot : ForBlock l.conflictingBlock.commit i sig)

include hc h hslot

/-- A slot for the block that names a validator of the common set is signed
by it, if the heights differ. -/
lemma Attacked.named (hne : common.header.height ≠ l.conflictingBlock.height)
    (hfound : vals.getByAddress sig.validatorAddress ≠ none) :
    ∃ val ∈ vals.validators, val.address = sig.validatorAddress
    ∧ Signs c trusted.header.chainID l.conflictingBlock.commit i val := by
  obtain ⟨product, entries, -, hcert⟩ := verifyCommitLightTrustingInternal_certified hc (h.jump hne)
  have hmem : (sig, i) ∈ l.conflictingBlock.commit.signatures.zipIdx :=
    mem_zipIdx_iff_getElem?.mpr hslot.1
  rcases hcert.all rfl (sig, i) hmem (by simp [trustingRule, hslot.2]) with
    ⟨e, he, hsig, hidx⟩ | ⟨-, hnone⟩
  · have hpicked := hcert.picked e he
    have hnamed := hpicked.named rfl
    have hverified := hcert.verified e he
    have hmsg := hpicked.msg
    rw [hsig] at hnamed hverified
    rw [hidx] at hmsg
    exact ⟨e.val, mem_of_getElem? hpicked.val, hnamed, sig, e.msg, hslot, hmsg, hverified⟩
  exact absurd hnone hfound

/-- A slot for the block is signed by the validator of the conflicting set
that it belongs to. -/
lemma Attacked.owned {val : Validator}
    (hval : l.conflictingBlock.validatorSet.validators[i]? = some val) :
    Signs c trusted.header.chainID l.conflictingBlock.commit i val := by
  obtain ⟨-, -, -, entries, hcert⟩ := verifyCommitLightInternal_certified hc h.commit
  have hmem : (sig, i) ∈ l.conflictingBlock.commit.signatures.zipIdx :=
    mem_zipIdx_iff_getElem?.mpr hslot.1
  rcases hcert.all rfl (sig, i) hmem (by simp [lightRule, hslot.2]) with
    ⟨e, he, hsig, hidx⟩ | ⟨hlook, -⟩
  · have hpicked := hcert.picked e he
    have hverified := hcert.verified e he
    have hmsg := hpicked.msg
    have hposition : e.valIdx = i := hpicked.position.trans hidx
    have hget := hpicked.val
    rw [hposition, hval] at hget
    cases hget
    rw [hsig] at hverified
    rw [hidx] at hmsg
    exact ⟨sig, e.msg, hslot, hmsg, hverified⟩
  cases hlook

end

-- ==== the chain

/-- The keys and powers that `ValidatorSet.Hash` commits to. -/
def keysOf (vals : ReceivedSet) : List (Bytes × Int) :=
  vals.validators.map fun val => (val.pubKey, val.votingPower)

lemma validateBasic_set
    (h : l.validateBasic c.toCrypto enc.header enc.validators = true) :
    l.conflictingBlock.validatorSet.validators ≠ []
      ∧ (∀ v ∈ l.conflictingBlock.validatorSet.validators, v.address
        = c.address v.pubKey)
      ∧ l.conflictingBlock.header.validatorsHash
        = enc.validators l.conflictingBlock.validatorSet := by
  unfold LightClientAttackEvidence.validateBasic LightBlock.validateBasic validateBasic at h
  simp only [and_eq_true, decide_eq_true_eq, all_eq_true] at h
  obtain ⟨-, ⟨⟨-, ⟨hne, hall⟩, -⟩, hhash⟩⟩ := h
  refine ⟨fun hnil => hne (by rw [hnil]; rfl), fun v hv => ?_, hhash⟩
  exact of_decide_eq_true (hall v hv)

variable {height : Int}

def KeysHashed (enc : Encoding) (chain : Chain) (l : LightClientAttackEvidence) : Prop :=
  ∀ h, enc.validators l.conflictingBlock.validatorSet = enc.validators (chain.validators h) →
    keysOf l.conflictingBlock.validatorSet = keysOf (chain.validators h)

/-- In an equivocation both blocks have the same validators. -/
lemma same_keys (hchain : chain.Sound c enc)
    (hbasic : l.validateBasic c.toCrypto enc.header enc.validators = true)
    (hvals : KeysHashed enc chain l)
    (hvalid : l.conflictingHeaderIsInvalid
      (chain.signedHeader height).header = false) :
    keysOf l.conflictingBlock.validatorSet
      = keysOf (chain.validators height) := by
  refine hvals height ?_
  unfold LightClientAttackEvidence.conflictingHeaderIsInvalid at hvalid
  simp only [ne_eq, decide_not, or_eq_false_iff, not_eq_false',
    decide_eq_true_eq] at hvalid
  rw [← (validateBasic_set hbasic).2.2, ← hvalid.1.1.1.1]
  exact hchain.validatorsHash height

/-- The validator of a slot of the trusted commit has the key of that of the
conflicting one. -/
lemma signs_trusted (hchain : chain.Sound c enc) {val : Validator}
    (hkeys : keysOf l.conflictingBlock.validatorSet
      = keysOf (chain.validators height))
    (hslot : ForBlock (chain.commit height) i sig)
    (hval : l.conflictingBlock.validatorSet.validators[i]? = some val) :
    Signs c chain.chainID (chain.commit height) i val := by
  obtain ⟨val', msg, hval', hmsg, hverify⟩ := hchain.signed height i sig hslot.1 hslot.2
  have hkey := congrArg (fun l => l[i]?) hkeys
  unfold keysOf at hkey
  simp only [getElem?_map, hval, hval', Option.map_some, Option.some.injEq, Prod.mk.injEq] at hkey
  rw [← hkey.1] at hverify
  exact ⟨sig, msg, hslot, hmsg, hverify⟩

section

variable (hc : c.Lawful) (hbasic : l.validateBasic c.toCrypto enc.header enc.validators = true)
    (hvals : KeysHashed enc chain l)

include hc hbasic hvals

/-- Whoever has such a slot is guilty, and whoever is guilty has one. -/
lemma guilty_iff_ownSlot (hchain : chain.Sound c enc) (hon : node.On chain)
    (htrusted : node.trustedFor l = some trusted)
    (hattack : Attacked c l common trusted (chain.validators l.commonHeight))
    (address : Bytes) :
    Guilty c chain node address (.lightClientAttack l)
      ↔ OwnSlot chain node l address := by
  obtain ⟨height, rfl⟩ := hon.trustedFor htrusted
  have hid : (chain.signedHeader height).header.chainID = chain.chainID := hchain.chainID height
  refine exists_congr fun t => and_congr_right fun ht => ?_
  obtain rfl : chain.signedHeader height = t := Option.some.inj (htrusted.symm.trans ht)
  cases hinvalid : l.conflictingHeaderIsInvalid (chain.signedHeader height).header with
  | true =>
    constructor
    · rintro ⟨i, sig, val, hmem, haddress, hslot, hname, -⟩
      exact ⟨i, sig, hslot, hname, val, hmem, (hchain.address _ val hmem).trans haddress⟩
    rintro ⟨i, sig, hslot, hname, val, hmem, haddress⟩
    have hne : common.header.height ≠ l.conflictingBlock.height := by
      intro heq
      rw [hattack.derived heq] at hinvalid
      cases hinvalid
    obtain ⟨val', hmem', hnamed, hsigns⟩ := hattack.named hc hslot hne (by
      unfold getByAddress
      split
      next hnone =>
        rw [findIdx?_eq_none_iff] at hnone
        have := hnone val hmem
        rw [hname, haddress] at this
        simp at this
      next idx hidx =>
      have hlt := (findIdx?_eq_some_iff_findIdx_eq.mp hidx).1
      rw [getElem?_eq_getElem hlt]
      exact fun h => nomatch h)
    rw [hid] at hsigns
    exact ⟨i, sig, val', hmem', ((hchain.address _ val' hmem').symm.trans
      hnamed).trans hname, hslot, hname, hsigns⟩
  | false =>
    refine and_congr_right fun hround => ?_
    have hkeys := same_keys hchain hbasic hvals hinvalid
    constructor
    · rintro ⟨i, val, hval, haddress, ⟨sig, -, hslot, -⟩, ⟨sig', -, hslot', -⟩⟩
      exact ⟨i, sig, sig', val, hslot, hslot', hval, ((validateBasic_set hbasic).2.1 val
          (mem_of_getElem? hval)).trans haddress⟩
    rintro ⟨i, sig, sig', val, hslot, hslot', hval, haddress⟩
    have hsigns := hattack.owned hc hslot hval
    rw [hid] at hsigns
    exact ⟨i, val, hval, ((validateBasic_set hbasic).2.1 val
      (mem_of_getElem? hval)).symm.trans haddress, hsigns,
      signs_trusted hchain hkeys hslot' hval⟩

lemma validateABCI_noPanic_iff (hchain : chain.Sound c enc)
    (hattack : Attacked c l common (chain.signedHeader height) vals) :
    (∀ e, validateABCIEvidence l vals (chain.signedHeader height) = .error e →
      e.isPanic = false)
      ↔ (l.conflictingHeaderIsInvalid (chain.header height) = false →
        (chain.commit height).round = l.conflictingBlock.commit.round →
        (∀ sig ∈ namedTwice (chain.commit height).signatures
          l.conflictingBlock.commit.signatures.zipIdx,
          (l.conflictingBlock.validatorSet.getByAddress
            sig.validatorAddress).isSome = true)
          ∨ ((namedTwice (chain.commit height).signatures
            l.conflictingBlock.commit.signatures.zipIdx).length = 1
            ∧ (l.byzantineValidators.getD []).length ≠ 1)) := by
  rw [validateABCIEvidence_eq hattack.total]
  unfold LightClientAttackEvidence.getByzantineValidators
  cases hinvalid : l.conflictingHeaderIsInvalid (chain.signedHeader height).header with
  | true =>
    refine iff_of_true (fun e he => ?_) (fun h => ?_)
    · exact acceptsListed_noPanic he
    exact absurd (hinvalid.symm.trans h) (by decide)
  | false =>
    rw [if_neg Bool.false_ne_true]
    by_cases hround : (chain.signedHeader height).commit.round = l.conflictingBlock.commit.round
    · -- equivocation: the trusted commit has as many slots
      obtain ⟨hsize, -, -, -⟩ := verifyCommitLightInternal_certified hc hattack.commit
      have hkeys := congrArg length (same_keys hchain hbasic hvals hinvalid)
      have htrusted := hchain.size height
      unfold keysOf at hkeys
      rw [length_map, length_map] at hkeys
      unfold size at hsize htrusted
      have hslots : ∀ slot ∈ l.conflictingBlock.commit.signatures.zipIdx,
          slot.2 < (chain.signedHeader height).commit.signatures.length := by
        intro slot hslot
        have hlt := (List.getElem?_eq_some_iff.mp (List.mem_zipIdx_iff_getElem?.mp hslot)).1
        change slot.2 < (chain.commit height).signatures.length
        omega
      rw [if_pos hround, votedTwice_eq hslots]
      rw [sorted_noPanic_iff, length_map]
      rw [show (∀ v ∈ map _ _, _) ↔ _ from forall_mem_map]
      simp only [Option.isSome_map]
      exact ⟨fun h _ _ => h, fun h => h hinvalid hround⟩
    rw [if_neg hround]
    refine iff_of_true (fun e he => ?_) (fun _ h => absurd h hround)
    exact @acceptsListed_noPanic _ _ [] he

end

lemma verifyDuplicateVote_noPanic {c : Crypto} {e : DuplicateVoteEvidence}
    {chainID : String} {valSet : ReceivedSet} {err : EvidenceError}
    (h : verifyDuplicateVote c e chainID valSet = .error err) :
    err.isPanic = false := by
  unfold verifyDuplicateVote at h
  repeat' split at h
  all_goals cases h
  all_goals rfl

-- ==== the result

lemma sampleChain_sound : sampleChain.Sound sampleVerifier sampleEncoding where
  chainID _ := rfl
  validatorsHash _ := rfl
  nonempty _ := cons_ne_nil _ _
  address _ v hv := by
    have hall : ∀ v ∈ sampleValidators.validators,
        v.address = sampleVerifier.address v.pubKey := by decide
    exact hall v hv
  size _ := rfl
  signed h i sig hsig _ := by
    match i, hsig with
    | 0, hsig =>
      cases hsig
      exact ⟨_, _, rfl, rfl, rfl⟩
    | 1, hsig =>
      cases hsig
      exact ⟨_, _, rfl, rfl, rfl⟩

lemma sampleVerifier_lawful : sampleVerifier.Lawful where
  add _ _ _ _ h := nomatch h
  verify type batch hne hadd := by
    obtain ⟨e, rest, rfl⟩ := exists_cons_of_ne_nil hne
    exact nomatch hadd e (mem_cons_self ..)

/-- An equivocation of the first validator of the small chain at height 1,
with a name in its slot and some listed validators. -/
def sampleAttack (name : UInt8) (listed : List Validator) : LightClientAttackEvidence where
  conflictingBlock := {
    header := sampleHeader 1 0 (List.replicate 32 9)
    commit := sampleCommit (sampleHeader 1 0 (List.replicate 32 9))
      [sampleSig name 1, newCommitSigAbsent]
    validatorSet := sampleValidators }
  commonHeight := 1
  byzantineValidators := some listed
  totalVotingPower := 11
  timestamp := 2 * 10 ^ 9

/-- Whoever is reported in evidence that is accepted is guilty exactly if the
listed keys are those of validators with a slot of their own; and the
verification does not panic exactly if the slots name validators. -/
theorem evidence_frames_nobody_iff (c : Verifier) (hc : c.Lawful)
    (enc : Encoding) (chain : Chain) (hchain : chain.Sound c enc)
    (node : Node) (hon : node.On chain) (ev : Evidence)
    (hbasic : ev.validateBasic c.toCrypto enc = true)
    (hvals : ∀ l, ev = .lightClientAttack l →
      ∀ h, enc.validators l.conflictingBlock.validatorSet
        = enc.validators (chain.validators h) →
        keysOf l.conflictingBlock.validatorSet = keysOf (chain.validators h)) :
    (node.verify c enc ev = .ok () →
      ((∀ m ∈ ev.abci c.toCrypto, Guilty c chain node m.address ev)
        ↔ ListsSigners c.toCrypto chain node ev))
      ∧ ((∀ e, node.verify c enc ev = .error e → e.isPanic = false)
        ↔ NamesValidators c enc node ev) := by
  cases ev with
  | duplicateVote dve =>
    constructor
    · intro hok
      refine iff_of_true (fun m hm => ?_) trivial
      obtain rfl := mem_singleton.mp hm
      obtain ⟨-, idx, val, hdup⟩ := hon.duplicateVote hok
      obtain ⟨-, hval, -⟩ := getByAddress_some hdup.found
      exact ⟨val, mem_of_getElem? hval, hdup.pubKey, hdup.signedA,
        hdup.signedB, hdup.height, hdup.round, hdup.type, hdup.blockID⟩
    refine iff_of_true (fun e he => ?_) trivial
    rcases node.verify_cases c enc (.duplicateVote dve) with
      ⟨-, hverify⟩ | ⟨-, e', hverify, hno⟩
    · rw [hverify] at he
      unfold verifyKind at he
      dsimp only at he
      split at he
      · cases he
        rfl
      exact verifyDuplicateVote_noPanic he
    rw [hverify] at he
    cases he
    exact hno
  | lightClientAttack l =>
    have hvals := hvals l rfl
    rcases node.verify_attack c enc l with
      ⟨common, trusted, vals, hrecent, hcommon, htrusted, hload, hverify⟩
      | ⟨hno, e', hverify, hpanic⟩
    · obtain ⟨height, rfl⟩ := hon.trustedFor htrusted
      have hsame := hon.validators _ _ hload
      rw [hverify]
      unfold verifyLightClientAttack
      cases hattack : verifyAttack c enc l common (chain.signedHeader height) vals with
      | error err =>
        refine ⟨fun h => (nomatch h), iff_of_true (fun e he => ?_) fun t ht => ?_⟩
        · cases he
          refine verifyAttack_noPanic ?_ (validateBasic_set hbasic).1 hattack
          rw [hsame]
          exact hchain.nonempty _
        obtain ⟨common', vals', hcommon', hload', hok⟩ := ht.attack
        obtain rfl := Except.ok.inj (hcommon.symm.trans hcommon')
        obtain rfl := Option.some.inj (hload.symm.trans hload')
        obtain rfl := Option.some.inj (htrusted.symm.trans ht.trustedFor)
        rw [hattack] at hok
        cases hok
      | ok _ =>
        have hattacked := verifyAttack_ok hattack
        constructor
        · intro _
          rw [hsame] at hattacked
          have hiff := guilty_iff_ownSlot hc hbasic hvals hchain hon htrusted hattacked
          exact forall_mem_map.trans (forall₂_congr fun val _ => hiff (c.address val.pubKey))
        rw [validateABCI_noPanic_iff hc hbasic hvals hchain hattacked]
        constructor
        · intro h t ht
          obtain rfl := Option.some.inj (htrusted.symm.trans ht.trustedFor)
          exact h
        intro h
        exact h _ ⟨hrecent, htrusted, common, vals, hcommon, hload, hattack⟩
    rw [hverify]
    refine ⟨fun h => (nomatch h), iff_of_true (fun e he => ?_) fun t ht => absurd ht (hno t)⟩
    cases he
    exact hpanic

/-- The theorem at an equivocation that names and lists the first
validator. -/
theorem evidence_blames_signer :
    (sampleNode 2).verify sampleVerifier sampleEncoding
      (.lightClientAttack (sampleAttack 1 [sampleValidator 1 10])) = .ok ()
      ∧ (∀ m ∈ (Evidence.lightClientAttack
        (sampleAttack 1 [sampleValidator 1 10])).abci sampleVerifier.toCrypto,
        Guilty sampleVerifier sampleChain (sampleNode 2) m.address
        (.lightClientAttack (sampleAttack 1 [sampleValidator 1 10])))
      ∧ ∀ e, (sampleNode 2).verify sampleVerifier sampleEncoding
        (.lightClientAttack
          (sampleAttack 1 [sampleValidator 1 10])) = .error e →
        e.isPanic = false := by
  have hok : (sampleNode 2).verify sampleVerifier sampleEncoding
      (.lightClientAttack (sampleAttack 1 [sampleValidator 1 10])) = .ok () := by decide +kernel
  obtain ⟨hguilty, hpanic⟩ := evidence_frames_nobody_iff sampleVerifier
    sampleVerifier_lawful sampleEncoding sampleChain sampleChain_sound
    (sampleNode 2) (sampleNode_on 2)
    (.lightClientAttack (sampleAttack 1 [sampleValidator 1 10]))
    (by decide +kernel)
    (by
      intro l hl h _
      cases hl
      rfl)
  refine ⟨hok, (hguilty hok).mpr fun val hval => ?_, hpanic.mpr ?_⟩
  · obtain rfl := mem_singleton.mp hval
    refine ⟨sampleChain.signedHeader 1, rfl, ?_⟩
    exact ⟨rfl, 0, _, _, _, ⟨rfl, rfl⟩, ⟨rfl, rfl⟩, rfl, rfl⟩
  intro trusted htrusted _ _
  obtain rfl : sampleChain.signedHeader 1 = trusted := Option.some.inj htrusted.trustedFor
  exact .inl (by decide +kernel)

/-- With the name of the second validator in the slot of the first one, or
with its key beside the listed address, evidence is accepted that reports the
second validator, who is not guilty. With the name of nobody in the slot the
verification panics. -/
theorem evidence_frames_bystander :
    (sampleNode 2).verify sampleVerifier sampleEncoding
      (.lightClientAttack (sampleAttack 2 [sampleValidator 2 1])) = .ok ()
      ∧ ((Evidence.lightClientAttack
        (sampleAttack 2 [sampleValidator 2 1])).abci
        sampleVerifier.toCrypto).map Misbehavior.address
        = [List.replicate 20 2]
      ∧ ¬Guilty sampleVerifier sampleChain (sampleNode 2) (List.replicate 20 2)
        (.lightClientAttack (sampleAttack 2 [sampleValidator 2 1]))
      ∧ (sampleNode 2).verify sampleVerifier sampleEncoding (.lightClientAttack
        (sampleAttack 1
          [⟨List.replicate 20 1, List.replicate 20 2, 10, 0⟩])) = .ok ()
      ∧ ((Evidence.lightClientAttack (sampleAttack 1
        [⟨List.replicate 20 1, List.replicate 20 2, 10, 0⟩])).abci
        sampleVerifier.toCrypto).map Misbehavior.address
        = [List.replicate 20 2]
      ∧ (sampleNode 2).verify sampleVerifier sampleEncoding
        (.lightClientAttack (sampleAttack 3 [sampleValidator 3 1]))
        = .error (.panic .nilValidator) := by
  refine ⟨by decide +kernel, by decide +kernel, ?_, by decide +kernel,
    by decide +kernel, by decide +kernel⟩
  rintro ⟨trusted, htrusted, h⟩
  obtain rfl : sampleChain.signedHeader 1 = trusted := Option.some.inj htrusted
  obtain ⟨-, i, val, hval, haddress, ⟨sig, -, hslot, -⟩, -⟩ := h
  -- the second slot of the conflicting commit is absent
  match i, hval, hslot with
  | 0, hval, _ =>
    cases hval
    exact absurd haddress (by decide)
  | 1, _, hslot =>
    obtain ⟨hsig, hflag⟩ := hslot
    cases hsig
    cases hflag

end HetuEngine.EvidencePool
