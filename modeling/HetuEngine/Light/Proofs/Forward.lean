/-
Forward verification from a trusted header.

A commit that passed a light verification has signatures of different
validators of the set it was checked with. Where their power exceeds that of
the faulty ones, a correct validator has signed, and correct validators sign
headers of the chain only (`LightChain.correct`).

# Which validators are trusted

While a header is within the trusting period, less than a third of the power
of its *next* validators is faulty (`LightChain.Safe`). `VerifyAdjacent`
checks with these validators. `verifySkipping` checks with the validators of
the trusted header itself, who are the next validators of the header before
it, and that one may have expired (`own_validators_trusted`).

The trust level is at least a third, but its denominator is taken as an
int64. From 2^63 on it is negative, and no signature at all may be enough.

# Termination

The block in between is lower than the block above it, whatever the
arithmetic wraps to (`pivotHeight_lt`), and a block that is verified is above
the one before. `Skipping.measure` falls with every round.
-/
import HetuEngine.Comet.Proofs.Light
import HetuEngine.Light.Verifier
import HetuEngine.Lib.Along

namespace HetuEngine.Light

open Lib Lib.Weight Comet EvidencePool Skipping

-- ==== validators

/-- What the hash of a validator set covers: keys and powers, in order. -/
def content (vals : ReceivedSet) : List (Bytes × Int) :=
  vals.validators.map fun val => (val.pubKey, val.votingPower)

def faultyPower (faulty : Bytes → Bool) (vals : ReceivedSet) : Int :=
  ((content vals).map fun entry => if faulty entry.1 then entry.2 else 0).sum

def MinorityFaulty (faulty : Bytes → Bool) (vals : ReceivedSet) : Prop :=
  3 * faultyPower faulty vals < vals.totalVotingPower

lemma totalVotingPower_eq (vals : ReceivedSet) :
    vals.totalVotingPower = ((content vals).map Prod.snd).sum := by
  unfold content ReceivedSet.totalVotingPower
  rw [List.map_map]
  rfl

variable {faulty : Bytes → Bool}

lemma MinorityFaulty.congr {vals vals' : ReceivedSet}
    (h : MinorityFaulty faulty vals) (heq : content vals' = content vals) :
    MinorityFaulty faulty vals' := by
  unfold MinorityFaulty faultyPower at h ⊢
  rw [totalVotingPower_eq] at h ⊢
  rw [heq]
  exact h

variable {entries : List Checked}

/-- Different validators who are all faulty have at most the faulty power. -/
lemma checkedPower_le_faultyPower {vals : ReceivedSet}
    (hval : ∀ e ∈ entries, vals.validators[e.valIdx]? = some e.val)
    (hnodup : (entries.map Checked.valIdx).Nodup)
    (hfaulty : ∀ e ∈ entries, faulty e.val.pubKey = true) :
    checkedPower entries ≤ faultyPower faulty vals := by
  -- the faulty power of each position
  let f : Validator → Nat := fun val => if faulty val.pubKey then val.votingPower.toNat else 0
  have hchecked : checkedPower entries = (weigh (fun i => (vals.validators[i]?).elim 0 f)
      (entries.map Checked.valIdx) : Nat) := by
    unfold checkedPower weigh
    rw [Nat.cast_list_sum, List.map_map, List.map_map]
    refine congrArg List.sum (List.map_congr_left fun e he => ?_)
    show e.val.votingPower = ((vals.validators[e.valIdx]?).elim 0 f : Nat)
    rw [hval e he]
    show _ = ((if faulty e.val.pubKey then e.val.votingPower.toNat else 0 : Nat) : Int)
    rw [if_pos (hfaulty e he)]
    exact (Int.toNat_of_nonneg (vals.power_nonneg _ (List.mem_of_getElem? (hval e he)))).symm
  have hsum : ((vals.validators.map f).sum : Nat) = faultyPower faulty vals := by
    unfold faultyPower content
    rw [Nat.cast_list_sum, List.map_map, List.map_map]
    refine congrArg List.sum (List.map_congr_left fun v hv => ?_)
    show ((if faulty v.pubKey then v.votingPower.toNat else 0 : Nat) : Int) = _
    rw [Nat.cast_ite, Int.toNat_of_nonneg (vals.power_nonneg v hv)]
    rfl
  rw [hchecked, ← hsum]
  exact_mod_cast weigh_index_le vals.validators f hnodup

lemma Certified.exists_correct {c : Verifier} {chainID : String}
    {vals : ReceivedSet} {commit : Commit} {rule : VerifyRule}
    (h : Certified c chainID vals commit rule entries)
    (hneeded : faultyPower faulty vals ≤ rule.votingPowerNeeded) :
    ∃ e ∈ entries, faulty e.val.pubKey = false := by
  by_contra hno
  have hfaulty : ∀ e ∈ entries, faulty e.val.pubKey = true := by
    intro e he
    cases hf : faulty e.val.pubKey with
    | true => rfl
    | false => exact absurd ⟨e, he, hf⟩ hno
  have hle := checkedPower_le_faultyPower (fun e he => (h.picked e he).val) h.distinct hfaulty
  have henough := h.enough
  omega

-- ==== trust levels

/-- A trust level that is accepted, and whose denominator is an int64, asks
for at least a third of the power. -/
lemma third_le_needed {lvl : Fraction}
    (hvalid : validateTrustLevel lvl = true)
    (hden : lvl.denominator < 2 ^ 63) {total product : Int}
    (htotal : 0 ≤ total)
    (h : safeMul total (wrap64 lvl.numerator) = some product) :
    total / 3 ≤ product.tdiv (wrap64 lvl.denominator) := by
  unfold validateTrustLevel at hvalid
  simp only [Bool.not_eq_true', Bool.or_eq_false_iff, decide_eq_false_iff_not] at hvalid
  obtain ⟨⟨hthird, hone⟩, hzero⟩ := hvalid
  have hthird : lvl.denominator ≤ 3 * lvl.numerator := by omega
  have hnum : wrap64 lvl.numerator = lvl.numerator :=
    wrap64_of_range (by unfold minInt64; omega) (by unfold maxInt64; omega)
  have hdenom : wrap64 lvl.denominator = lvl.denominator :=
    wrap64_of_range (by unfold minInt64; omega) (by unfold maxInt64; omega)
  rw [hdenom]
  rw [hnum] at h
  unfold safeMul at h
  split at h
  next hz =>
    cases h
    rw [Int.zero_tdiv]
    have : total = 0 := by omega
    rw [this]
    decide
  next hz =>
  dsimp only at h
  rw [if_neg (show ¬(lvl.numerator : Int) < 0 by omega), if_neg (show ¬total < 0 by omega)] at h
  split at h
  · cases h
  next hfits =>
  have hpos : (0 : Int) < lvl.numerator := by omega
  have hle : total * lvl.numerator ≤ maxInt64 := by
    rw [not_lt] at hfits
    calc total * lvl.numerator ≤ maxInt64 / lvl.numerator * lvl.numerator :=
          mul_le_mul_of_nonneg_right hfits hpos.le
      _ ≤ maxInt64 := Int.ediv_mul_le _ hpos.ne'
  have hprod : (0 : Int) ≤ total * lvl.numerator := mul_nonneg htotal hpos.le
  rw [wrap64_of_range (by unfold minInt64; omega) hle] at h
  cases h
  rw [Int.tdiv_eq_ediv_of_nonneg hprod]
  refine Int.le_ediv_of_mul_le (by omega) ?_
  calc total / 3 * lvl.denominator ≤ total / 3 * (3 * lvl.numerator) :=
        Int.mul_le_mul_of_nonneg_left (by exact_mod_cast hthird)
          (Int.ediv_nonneg htotal (by decide))
    _ = total / 3 * 3 * lvl.numerator := by rw [mul_assoc]
    _ ≤ total * lvl.numerator :=
        Int.mul_le_mul_of_nonneg_right (Int.ediv_mul_le _ (by decide)) hpos.le

-- ==== the chain

/-- A chain of headers with their validators, some of whose keys are faulty.
Correct validators sign its headers only, and nothing else has the hash of
its headers and validators. -/
structure LightChain (c : Verifier) (enc : Encoding) where
  chainID : String
  initial : Int
  last : Int
  header : Int → Header
  vals : Int → ReceivedSet
  faulty : Bytes → Bool
  header_height : ∀ h, initial ≤ h → h ≤ last → (header h).height = h
  header_chainID : ∀ h, initial ≤ h → h ≤ last → (header h).chainID = chainID
  validatorsHash : ∀ h, initial ≤ h → h ≤ last → (header h).validatorsHash = enc.validators (vals h)
  nextValidatorsHash : ∀ h, initial ≤ h → h ≤ last →
    (header h).nextValidatorsHash = enc.validators (vals (h + 1))
  time_lt : ∀ h, initial ≤ h → h < last → (header h).time < (header (h + 1)).time
  correct : ∀ pubKey w sig, faulty pubKey = false → w.type = .precommit
    → w.blockID.isZero = false → c.verifySignature pubKey (c.voteSignBytes chainID w) sig = true
    → initial ≤ w.height ∧ w.height ≤ last ∧ w.blockID.hash = enc.header (header w.height)
  header_only : ∀ h, initial ≤ h → h ≤ last → ∀ other,
    enc.header other = enc.header (header h) → other = header h
  vals_only : ∀ h, initial ≤ h → h ≤ last + 1
    → ∀ other, enc.validators other = enc.validators (vals h) → content other = content (vals h)

namespace LightChain

variable {c : Verifier} {enc : Encoding} (chain : LightChain c enc)

structure HasHeader (sh : SignedHeader) : Prop where
  initial_le : chain.initial ≤ sh.header.height
  le_last : sh.header.height ≤ chain.last
  header : sh.header = chain.header sh.header.height

structure Has (b : LightBlock) : Prop where
  hasHeader : chain.HasHeader b.toSignedHeader
  vals : content b.validatorSet = content (chain.vals b.height)

/-- Less than a third of the power of the next validators of each header
within the trusting period is faulty. -/
def Safe (trustingPeriod : Int) (now : Time) : Prop :=
  ∀ h, chain.initial ≤ h → h ≤ chain.last →
    now < (chain.header h).time + trustingPeriod → MinorityFaulty chain.faulty (chain.vals (h + 1))

def OwnTrusted (h : Int) : Prop := MinorityFaulty chain.faulty (chain.vals h)

lemma time_mono {h : Int} (hinitial : chain.initial ≤ h) (n : Nat)
    (hlast : h + n ≤ chain.last) :
    (chain.header h).time ≤ (chain.header (h + n)).time := by
  induction n with
  | zero => rw [Nat.cast_zero, add_zero]
  | succ n ih =>
    have hstep := chain.time_lt (h + n) (by omega) (by omega)
    rw [Nat.cast_succ, ← add_assoc]
    exact (ih (by omega)).trans hstep.le

/-- The validators of a header of the chain are trusted if a lower header is
within the trusting period. -/
lemma own_validators_trusted {trustingPeriod : Int} {now : Time}
    (hsafe : chain.Safe trustingPeriod now) {h h' : Int}
    (hinitial : chain.initial ≤ h) (hlt : h < h') (hlast : h' ≤ chain.last)
    (hnow : now < (chain.header h).time + trustingPeriod) :
    chain.OwnTrusted h' := by
  obtain ⟨n, hn⟩ : ∃ n : Nat, h' - 1 = h + n := ⟨(h' - 1 - h).toNat, by omega⟩
  have hmono := chain.time_mono hinitial n (by omega)
  rw [← hn] at hmono
  have hown := hsafe (h' - 1) (by omega) (by omega) (hnow.trans_le (Int.add_le_add_right hmono _))
  rwa [sub_add_cancel] at hown

end LightChain

section

variable {c : Verifier} {enc : Encoding} {chain : LightChain c enc} {opts : Options} {now : Time}

-- ==== one header

lemma height_pos_of_validateBasic {header : Header}
    (h : header.validateBasic.isOk = true) : 0 < header.height := by
  cases hbasic : header.validateBasic with
  | error err =>
    rw [hbasic] at h
    cases h
  | ok u =>
    unfold Header.validateBasic at hbasic
    by_contra hle
    rcases lt_or_eq_of_le (not_lt.mp hle) with hneg | hzero
    · rw [if_pos hneg] at hbasic
      split_ifs at hbasic
    rw [if_neg hzero.not_lt, if_pos hzero] at hbasic
    split_ifs at hbasic

variable {trusted untrusted : SignedHeader} {vals : ReceivedSet}
  {b : LightBlock} {trustedVals untrustedVals : ReceivedSet} {source : Source}

lemma verifyNewHeaderAndVals_ok
    (h : verifyNewHeaderAndVals enc opts now untrusted vals trusted = .ok ()) :
    untrusted.validateBasic enc.header trusted.header.chainID = true
      ∧ trusted.header.height < untrusted.header.height
      ∧ untrusted.header.validatorsHash = enc.validators vals := by
  unfold verifyNewHeaderAndVals at h
  simp only [Lib.Fallible.ite_error_eq_ok] at h
  obtain ⟨hbasic, hheight, -, -, hvals, -⟩ := h
  exact ⟨by simpa using hbasic, not_le.mp hheight, not_not.mp hvals⟩

/-- A header that a correct validator has signed is the chain's. -/
lemma hasHeader_of_correct {rule : VerifyRule}
    (hbasic : untrusted.validateBasic enc.header chain.chainID = true)
    (hcert : Certified c chain.chainID vals untrusted.commit rule entries)
    (hrule : ∀ sig, rule.ignoreSig sig = false → sig.blockIDFlag = .commit)
    (hneeded : faultyPower chain.faulty vals ≤ rule.votingPowerNeeded) :
    chain.HasHeader untrusted := by
  obtain ⟨e, he, hcorrect⟩ := Certified.exists_correct hcert hneeded
  have hpicked := hcert.picked e he
  obtain ⟨w, -, htype, hwheight, hblock, -, hmsg⟩ :=
    hpicked.vote (List.Subset.refl _) (hrule _ hpicked.kept)
  unfold SignedHeader.validateBasic at hbasic
  simp only [Bool.and_eq_true, decide_eq_true_eq] at hbasic
  obtain ⟨⟨⟨⟨hheader, hcommit⟩, -⟩, hheight⟩, hhash⟩ := hbasic
  -- a header of a positive height is not committed with a zero id
  have hpos := height_pos_of_validateBasic hheader
  have hzero : w.blockID.isZero = false := by
    unfold Commit.validateBasic at hcommit
    simp only [Bool.and_eq_true, Bool.or_eq_true, decide_eq_true_eq, Bool.not_eq_true'] at hcommit
    rw [hblock]
    rcases hcommit.2 with hlt | hrest
    · omega
    exact hrest.1.1
  have hverified := hcert.verified e he
  rw [hmsg] at hverified
  obtain ⟨hinitial, hlast, heq⟩ := chain.correct _ w _ hcorrect htype hzero hverified
  rw [hwheight, hheight] at hinitial hlast heq
  rw [hblock, ← hhash] at heq
  exact ⟨hinitial, hlast, chain.header_only _ hinitial hlast _ heq⟩

/-- A block that has a header of the chain has the chain's validators. -/
lemma has_of_hasHeader (h : chain.HasHeader b.toSignedHeader)
    (hvals : b.header.validatorsHash = enc.validators b.validatorSet) :
    chain.Has b := by
  refine ⟨h, chain.vals_only b.height h.initial_le (h.le_last.trans (by omega)) b.validatorSet ?_⟩
  rw [← hvals, h.header]
  exact chain.validatorsHash _ h.initial_le h.le_last

/-- A minority is below what `VerifyCommitLight` asks for. -/
lemma MinorityFaulty.le_twoThirds (h : MinorityFaulty faulty vals) :
    faultyPower faulty vals ≤ vals.totalVotingPower * 2 / 3 := by
  have hpos := vals.totalVotingPower_nonneg
  unfold MinorityFaulty at h
  omega

lemma not_expired {sh : SignedHeader}
    (h : ¬headerExpired sh opts.trustingPeriod now = true) :
    now < sh.header.time + opts.trustingPeriod := by
  unfold headerExpired at h
  simpa using h

lemma LightChain.HasHeader.chainID (h : chain.HasHeader trusted) :
    trusted.header.chainID = chain.chainID := by
  rw [h.header]
  exact chain.header_chainID _ h.initial_le h.le_last

/-- What `VerifyAdjacent` accepts is the chain's next block. -/
lemma verifyAdjacent_sound (hc : c.Lawful)
    (hsafe : chain.Safe opts.trustingPeriod now)
    (htrusted : chain.HasHeader trusted)
    (h : verifyAdjacent c enc opts now trusted b.toSignedHeader
      b.validatorSet = .ok ()) :
    chain.Has b := by
  unfold verifyAdjacent at h
  split at h
  · cases h
  split at h
  · cases h
  next hexpired =>
  split at h
  · cases h
  next hnew =>
  split at h
  · cases h
  next hnext =>
  rw [not_not] at hnext
  obtain ⟨hbasic, -, hvals⟩ := verifyNewHeaderAndVals_ok hnew
  rw [htrusted.chainID] at hbasic
  -- the validators are the next ones of the trusted header
  have hnow := not_expired hexpired
  rw [htrusted.header] at hnow hnext
  have hminority := hsafe _ htrusted.initial_le htrusted.le_last hnow
  rw [chain.nextValidatorsHash _ htrusted.initial_le htrusted.le_last, hvals] at hnext
  have hcontent := chain.vals_only (trusted.header.height + 1)
    (by have := htrusted.initial_le; omega)
    (by have := htrusted.le_last; omega) _ hnext
  have hminority := hminority.congr hcontent
  refine has_of_hasHeader ?_ hvals
  unfold verifyOwnCommit at h
  split at h
  · cases h
  next hcommit =>
  rw [htrusted.chainID] at hcommit
  obtain ⟨-, -, -, entries, hcert⟩ := verifyCommitLightInternal_certified hc hcommit
  exact hasHeader_of_correct hbasic hcert (fun sig hsig => by simpa [lightRule] using hsig)
    hminority.le_twoThirds

/-- A trust level of a third or more, on which nothing wraps. -/
structure Options.AThird (opts : Options) : Prop where
  level : validateTrustLevel opts.trustLevel = true
  denominator : opts.trustLevel.denominator < 2 ^ 63

/-- What `VerifyNonAdjacent` accepts is a block of the chain, if less than a
third of the power of the validators it is given is faulty. -/
lemma verifyNonAdjacent_sound (hc : c.Lawful) (hopts : opts.AThird)
    (htrusted : chain.HasHeader trusted)
    (hminority : MinorityFaulty chain.faulty trustedVals)
    (h : verifyNonAdjacent c enc opts now trusted trustedVals b.toSignedHeader
      b.validatorSet = .ok ()) :
    chain.Has b := by
  unfold verifyNonAdjacent at h
  split at h
  · cases h
  split at h
  · cases h
  split at h
  · cases h
  next hnew =>
  split at h
  · cases h
  · cases h
  next htrusting =>
  obtain ⟨hbasic, -, hvals⟩ := verifyNewHeaderAndVals_ok hnew
  rw [htrusted.chainID] at hbasic htrusting
  obtain ⟨product, entries, hproduct, hcert⟩ :=
    verifyCommitLightTrustingInternal_certified hc htrusting
  have hneeded := third_le_needed hopts.level hopts.denominator
    trustedVals.totalVotingPower_nonneg hproduct
  refine has_of_hasHeader (hasHeader_of_correct hbasic hcert
    (fun sig hsig => by simpa [trustingRule] using hsig) ?_) hvals
  unfold MinorityFaulty at hminority
  refine le_trans ?_ hneeded
  omega

lemma verify_sound (hc : c.Lawful) (hopts : opts.AThird)
    (hsafe : chain.Safe opts.trustingPeriod now) {trusted : LightBlock}
    (htrusted : chain.Has trusted) (hown : chain.OwnTrusted trusted.height)
    (h : verify c enc opts now trusted.toSignedHeader trusted.validatorSet
      b.toSignedHeader b.validatorSet = .ok ()) :
    chain.Has b := by
  unfold verify at h
  split at h
  · exact verifyNonAdjacent_sound hc hopts htrusted.hasHeader
      (MinorityFaulty.congr hown htrusted.vals) h
  exact verifyAdjacent_sound hc hsafe htrusted.hasHeader h

/-- `VerifyNonAdjacent` accepts higher headers only, and not from an expired
one. -/
lemma verifyNonAdjacent_ok
    (h : verifyNonAdjacent c enc opts now trusted trustedVals untrusted
      untrustedVals = .ok ()) :
    trusted.header.height < untrusted.header.height
      ∧ now < trusted.header.time + opts.trustingPeriod := by
  unfold verifyNonAdjacent at h
  split at h
  · cases h
  split at h
  · cases h
  next hexpired =>
  split at h
  · cases h
  next hnew =>
  exact ⟨(verifyNewHeaderAndVals_ok hnew).2.1, not_expired hexpired⟩

lemma verify_ok
    (h : verify c enc opts now trusted trustedVals untrusted
      untrustedVals = .ok ()) :
    trusted.header.height < untrusted.header.height
      ∧ now < trusted.header.time + opts.trustingPeriod := by
  unfold verify at h
  split at h
  · exact verifyNonAdjacent_ok h
  unfold verifyAdjacent at h
  split at h
  · cases h
  split at h
  · cases h
  next hexpired =>
  split at h
  · cases h
  next hnew =>
  exact ⟨(verifyNewHeaderAndVals_ok hnew).2.1, not_expired hexpired⟩

/-- A header that cannot be trusted is at least two higher. -/
lemma verify_cantBeTrusted {got needed : Int}
    (h : verify c enc opts now trusted trustedVals untrusted untrustedVals
      = .error (.newValSetCantBeTrusted got needed)) :
    trusted.header.height + 2 ≤ untrusted.header.height := by
  unfold verify at h
  split at h
  next hne =>
    unfold verifyNonAdjacent at h
    split at h
    · cases h
    split at h
    · cases h
    split at h
    · cases h
    next hnew =>
    have := (verifyNewHeaderAndVals_ok hnew).2.1
    omega
  · unfold verifyAdjacent verifyOwnCommit at h
    repeat' split at h
    all_goals cases h

-- ==== blocks in between

/-- The height in between is below the upper one, also where its computation
wraps around. -/
lemma pivotHeight_lt {verified untrusted : Int}
    (h : verified + 2 ≤ untrusted) :
    pivotHeight verified untrusted < untrusted := by
  unfold pivotHeight verifySkippingNumerator verifySkippingDenominator
  by_cases hsmall : untrusted - verified < 2 ^ 59
  · rw [wrap64_of_range (by unfold minInt64; omega) (by unfold maxInt64; omega),
      Int.tdiv_eq_ediv_of_nonneg (by omega)]
    omega
  have hmax : wrap64 ((untrusted - verified) * 9) < 2 ^ 63 := by
    have := @Int.bmod_lt ((untrusted - verified) * 9) (2 ^ 64) (by decide)
    unfold wrap64
    omega
  have hdiv : (wrap64 ((untrusted - verified) * 9)).tdiv 16 < 2 ^ 59 := by
    generalize wrap64 ((untrusted - verified) * 9) = x at hmax
    by_cases hx : 0 ≤ x
    · rw [Int.tdiv_eq_ediv_of_nonneg hx]
      omega
    have hneg := Int.tdiv_nonneg (a := -x) (b := 16) (by omega) (by decide)
    rw [Int.neg_tdiv] at hneg
    omega
  omega

/-- The cache holds blocks that are not above the target, and `depth` is an
index of it. -/
structure Skipping.Bounded (target : Int) (st : Skipping) : Prop where
  depth_lt : st.depth < st.blockCache.length
  heights : ∀ b ∈ st.blockCache, b.height ≤ target

/-- How far the target, and the last block of the cache, are above the
verified block, and how far the cache goes on. -/
def Skipping.measure (target : Int) (st : Skipping) : Nat × Nat × Nat :=
  ((target - st.verifiedBlock.height).toNat, ((st.blockCache.getLast?).elim 0 LightBlock.height
      - st.verifiedBlock.height).toNat,
    st.blockCache.length - st.depth)

/-- The lexicographic order of the measure. -/
def Skipping.Lower : Nat × Nat × Nat → Nat × Nat × Nat → Prop :=
  Prod.Lex (· < ·) (Prod.Lex (· < ·) (· < ·))

lemma Skipping.step_measure
    (hsource : ∀ n h b, source n h = .ok b → b.height = h) {target : Int}
    {st st' : Skipping} (hst : st.Bounded target)
    (h : st.step c enc opts now source = .inl st') :
    st'.Bounded target
      ∧ Skipping.Lower (st'.measure target) (st.measure target) := by
  unfold step at h
  split at h
  · cases h
  next block hblock =>
  have hblockle := hst.heights block (List.mem_of_getElem? hblock)
  split at h
  next hok =>
    -- the block is verified
    have hlt : st.verifiedBlock.height < block.height := (verify_ok hok).1
    unfold advance at h
    split at h
    · cases h
    next hdepth =>
    cases h
    refine ⟨⟨?_, fun b hb => hst.heights b (List.mem_of_mem_take hb)⟩, ?_⟩
    · dsimp only
      rw [List.length_take_of_le hst.depth_lt.le]
      omega
    refine Prod.Lex.left _ _ ?_
    dsimp only
    omega
  next got needed herr =>
    have htwo : st.verifiedBlock.height + 2 ≤ block.height := verify_cantBeTrusted herr
    unfold deepen at h
    split at h
    next hlastIndex =>
      -- a block in between is added
      dsimp only at h
      split at h
      next interim hinterim =>
        cases h
        have hpivot := pivotHeight_lt htwo
        have hheight := hsource _ _ _ hinterim
        have hlast : st.blockCache.getLast? = some block := by
          rw [List.getLast?_eq_getElem?, ← hblock, ← hlastIndex]
          rfl
        refine ⟨⟨?_, ?_⟩, ?_⟩
        · dsimp only
          rw [List.length_append, List.length_append, List.length_singleton]
          omega
        · intro b hb
          rw [List.append_assoc] at hb
          rcases List.mem_append.mp hb with hb | hb
          · exact hst.heights b hb
          have : b = interim := by simpa using hb
          rw [this]
          omega
        refine Prod.Lex.right _ (Prod.Lex.left _ _ ?_)
        rw [List.getLast?_concat, hlast]
        dsimp only [Option.elim]
        omega
      next err _ => split at h <;> cases h
    next hdeeper =>
    -- the block in between is there already
    cases h
    have hdepth := hst.depth_lt
    refine ⟨⟨?_, hst.heights⟩, ?_⟩
    · dsimp only
      omega
    refine Prod.Lex.right _ (Prod.Lex.right _ ?_)
    dsimp only
    omega
  · cases h

/-- `verifySkipping` ends, for every provider that answers with blocks of the
height it is asked for. -/
lemma verifySkipping_ends
    (hsource : ∀ n h b, source n h = .ok b → b.height = h) (requests : Nat)
    (trusted new : LightBlock) :
    ∃ fuel result, verifySkipping c enc opts now source fuel requests trusted
      new = some result := by
  have hwf : WellFounded Skipping.Lower :=
    wellFounded_lt.prod_lex (wellFounded_lt.prod_lex wellFounded_lt)
  refine Loop.run_ends (I := Skipping.Bounded new.height) hwf (measure new.height)
    (fun st st' hst hstep => step_measure hsource hst hstep) _ ?_
  refine ⟨Nat.zero_lt_one, fun b hb => ?_⟩
  rw [List.mem_singleton.mp hb]

-- ==== soundness

/-- The verified block is one of the chain with trusted validators, all of
the trace is of the chain, and the cache starts with the new block. -/
structure Skipping.Sound (chain : LightChain c enc) (new : LightBlock) (st : Skipping) : Prop where
  verified : chain.Has st.verifiedBlock
  own : chain.OwnTrusted st.verifiedBlock.height
  trace : ∀ b ∈ st.trace, chain.Has b
  new : st.blockCache.head? = some new

lemma Skipping.Sound.step (hc : c.Lawful) (hopts : opts.AThird)
    (hsafe : chain.Safe opts.trustingPeriod now) {new : LightBlock}
    {st : Skipping} (hst : st.Sound chain new) :
    (∀ st', st.step c enc opts now source = .inl st' → st'.Sound chain new)
      ∧ ∀ trace requests, st.step c enc opts now source
        = .inr (.ok (trace, requests)) →
        new ∈ trace ∧ ∀ b ∈ trace, chain.Has b := by
  unfold Skipping.step
  split
  · exact ⟨nofun, nofun⟩
  next block hblock =>
  split
  next hok =>
    -- the block is verified, and so are its validators
    have hhas := verify_sound hc hopts hsafe hst.verified hst.own hok
    obtain ⟨hlt, hnow⟩ := verify_ok hok
    have hown : chain.OwnTrusted block.height := by
      rw [hst.verified.hasHeader.header] at hnow
      exact chain.own_validators_trusted hsafe
        hst.verified.hasHeader.initial_le hlt hhas.hasHeader.le_last hnow
    have htrace : ∀ b ∈ st.trace ++ [block], chain.Has b := by
      intro b hb
      rcases List.mem_append.mp hb with hb | hb
      · exact hst.trace b hb
      rw [List.mem_singleton.mp hb]
      exact hhas
    unfold advance
    split
    next hdepth =>
      refine ⟨nofun, fun trace requests h => ?_⟩
      cases h
      have hnew := hst.new
      rw [hdepth, ← List.head?_eq_getElem?, hnew] at hblock
      cases hblock
      exact ⟨List.mem_append_right _ (List.mem_singleton.mpr rfl), htrace⟩
    next hdepth =>
    refine ⟨fun st' h => ?_, nofun⟩
    cases h
    refine ⟨hhas, hown, htrace, ?_⟩
    rw [List.head?_take, if_neg hdepth]
    exact hst.new
  next got needed herr =>
    refine ⟨fun st' h => ?_, fun trace requests h => ?_⟩
    · unfold deepen at h
      split at h
      · dsimp only at h
        split at h
        · cases h
          refine ⟨hst.verified, hst.own, hst.trace, ?_⟩
          rw [List.append_assoc, List.head?_append, hst.new]
          rfl
        split at h <;> cases h
      cases h
      exact { hst with }
    unfold deepen at h
    split at h
    · dsimp only at h
      split at h
      · cases h
      split at h <;> cases h
    cases h
  · exact ⟨nofun, nofun⟩

/-- All that `verifySkipping` returns is of the chain, if the validators of
the trusted header are trusted themselves. -/
lemma verifySkipping_sound (hc : c.Lawful) (hopts : opts.AThird)
    (hsafe : chain.Safe opts.trustingPeriod now)
    {fuel requests requests' : Nat} {trusted new : LightBlock}
    {trace : List LightBlock} (htrusted : chain.Has trusted)
    (hown : chain.OwnTrusted trusted.height)
    (h : verifySkipping c enc opts now source fuel requests trusted new
      = some (.ok (trace, requests'))) :
    new ∈ trace ∧ ∀ b ∈ trace, chain.Has b := by
  refine Loop.run_post (I := fun st => st.Sound chain new)
    (Q := fun result => ∀ trace requests, result = .ok (trace, requests) →
      new ∈ trace ∧ ∀ b ∈ trace, chain.Has b)
    (fun st st' hst => (hst.step hc hopts hsafe).1 st')
    (fun st result hst hstep trace requests heq => ?_) ?_ h trace requests'
    rfl
  · rw [heq] at hstep
    exact (hst.step hc hopts hsafe).2 trace requests hstep
  refine ⟨htrusted, hown, fun b hb => ?_, rfl⟩
  rw [List.mem_singleton.mp hb]
  exact htrusted

end

-- ==== verification after verification

/-- One verification: of a block that somebody offers, at a time. -/
inductive Attempt where
  | adjacent (now : Time) (block : LightBlock)
  | nonAdjacent (now : Time) (trustedVals : ReceivedSet) (block : LightBlock)
  | skipping (now : Time) (source : Source) (fuel requests : Nat) (block : LightBlock)

def Attempt.now : Attempt → Time
  | .adjacent now _ => now
  | .nonAdjacent now _ _ => now
  | .skipping now _ _ _ _ => now

/-- The block that is trusted, and all that have been accepted. -/
structure Trust where
  trusted : LightBlock
  accepted : List LightBlock

namespace Trust

section

variable (c : Verifier) (enc : Encoding) (opts : Options)

/-- A block that is accepted is trusted from then on. -/
def attempt (t : Trust) : Attempt → Trust
  | .adjacent now block =>
    match verifyAdjacent c enc opts now t.trusted.toSignedHeader
        block.toSignedHeader block.validatorSet with
    | .ok () => ⟨block, t.accepted ++ [block]⟩
    | .error _ => t
  | .nonAdjacent now trustedVals block =>
    match verifyNonAdjacent c enc opts now t.trusted.toSignedHeader
        trustedVals block.toSignedHeader block.validatorSet with
    | .ok () => ⟨block, t.accepted ++ [block]⟩
    | .error _ => t
  | .skipping now source fuel requests block =>
    match verifySkipping c enc opts now source fuel requests t.trusted block with
    | some (.ok (trace, _)) => ⟨block, t.accepted ++ trace⟩
    | _ => t

def run (t : Trust) (attempts : List Attempt) : Trust := attempts.foldl (attempt c enc opts) t

end

variable {c : Verifier} {enc : Encoding} {opts : Options}

/-- The validators that a header is checked with are the next validators of
the trusted header, or its own and trusted themselves. -/
def Meets (chain : LightChain c enc) (t : Trust) : Attempt → Prop
  | .adjacent _ _ => True
  | .nonAdjacent _ trustedVals _ =>
    content trustedVals = content (chain.vals (t.trusted.height + 1))
      ∨ (content trustedVals = content (chain.vals t.trusted.height)
        ∧ chain.OwnTrusted t.trusted.height)
  | .skipping _ _ _ _ _ => chain.OwnTrusted t.trusted.height

structure Sound (chain : LightChain c enc) (t : Trust) : Prop where
  trusted : chain.Has t.trusted
  accepted : ∀ b ∈ t.accepted, chain.Has b

variable {t : Trust}

variable {chain : LightChain c enc}

lemma Sound.accept (h : t.Sound chain) {b : LightBlock}
    {more : List LightBlock} (hb : chain.Has b)
    (hmore : ∀ b ∈ more, chain.Has b) :
    Sound chain ⟨b, t.accepted ++ more⟩ := by
  refine ⟨hb, fun b' hb' => ?_⟩
  rcases List.mem_append.mp hb' with hb' | hb'
  · exact h.accepted b' hb'
  exact hmore b' hb'

lemma Sound.attempt (hc : c.Lawful) (hopts : opts.AThird)
    (ht : t.Sound chain) {a : Attempt}
    (hsafe : chain.Safe opts.trustingPeriod a.now) (hmeets : t.Meets chain a) :
    (t.attempt c enc opts a).Sound chain := by
  cases a with
  | adjacent now block =>
    unfold Trust.attempt
    dsimp only
    split
    next hok =>
      have hb := verifyAdjacent_sound hc hsafe ht.trusted.hasHeader hok
      exact ht.accept hb (List.forall_mem_singleton.mpr hb)
    · exact ht
  | nonAdjacent now trustedVals block =>
    unfold Trust.attempt
    dsimp only
    split
    next hok =>
      have hminority : MinorityFaulty chain.faulty trustedVals := by
        rcases hmeets with hnext | ⟨hsame, hown⟩
        · have hnow := (verifyNonAdjacent_ok hok).2
          have htrusted := ht.trusted.hasHeader
          rw [htrusted.header] at hnow
          exact (hsafe _ htrusted.initial_le htrusted.le_last hnow).congr hnext
        exact MinorityFaulty.congr hown hsame
      have hb := verifyNonAdjacent_sound hc hopts ht.trusted.hasHeader hminority hok
      exact ht.accept hb (List.forall_mem_singleton.mpr hb)
    · exact ht
  | skipping now source fuel requests block =>
    unfold Trust.attempt
    dsimp only
    split
    next trace requests' hok =>
      obtain ⟨hnew, htrace⟩ := verifySkipping_sound hc hopts hsafe ht.trusted hmeets hok
      exact ht.accept (htrace block hnew) htrace
    · exact ht

lemma run_concat (t : Trust) (attempts : List Attempt) (a : Attempt) :
    t.run c enc opts (attempts ++ [a])
      = (t.run c enc opts attempts).attempt c enc opts a := by
  unfold run
  rw [List.foldl_append]
  rfl

lemma Sound.run (hc : c.Lawful) (hopts : opts.AThird) (ht : t.Sound chain)
    {attempts : List Attempt}
    (hsafe : ∀ a ∈ attempts, chain.Safe opts.trustingPeriod a.now)
    (hmeets : Along (fun before a => (t.run c enc opts before).Meets chain a)
      [] attempts) :
    (t.run c enc opts attempts).Sound chain := by
  induction attempts using List.reverseRecOn with
  | nil => exact ht
  | append_singleton attempts a ih =>
    rw [run_concat]
    obtain ⟨hbefore, ha⟩ := along_concat.mp hmeets
    exact (ih (fun a' ha' => hsafe a' (List.mem_append_left _ ha')) hbefore).attempt hc hopts
      (hsafe a (List.mem_append_right _ (List.mem_singleton.mpr rfl))) ha

end Trust

-- ==== a chain of three headers

def correctKey : Bytes := List.replicate 20 1

def faultyKey : Bytes := List.replicate 20 2

def soleValidator (key : Bytes) : ReceivedSet where
  validators := [⟨key, key, 1, 0⟩]
  proposer := some ⟨key, key, 1, 0⟩
  power_nonneg := by simp
  total_le := by
    show (1 + 0 : Int) ≤ maxTotalVotingPower
    decide

def hash32 (tag : UInt8) : Bytes := List.replicate 32 tag

/-- The validators of a height. Those of the first one are faulty or not. -/
def forwardVals (firstFaulty : Bool) (h : Int) : ReceivedSet :=
  if firstFaulty ∧ h = 1 then soleValidator faultyKey
  else soleValidator correctKey

def valsTag (vals : ReceivedSet) : UInt8 :=
  if content vals = [(correctKey, 1)] then 1
  else if content vals = [(faultyKey, 1)] then 2
  else 0

def forwardHeader (firstFaulty : Bool) (h : Int) : Header where
  version := ⟨blockProtocol, 0⟩
  chainID := "hetu"
  height := h
  time := 10 * h
  lastBlockID := .zero
  lastCommitHash := []
  dataHash := []
  validatorsHash := hash32 (valsTag (forwardVals firstFaulty h))
  nextValidatorsHash := hash32 (valsTag (forwardVals firstFaulty (h + 1)))
  consensusHash := []
  appHash := []
  lastResultsHash := []
  evidenceHash := []
  proposerAddress := correctKey

/-- The hash of a header tells the three headers of the chain from all
others. -/
def forwardEncoding (firstFaulty : Bool) : Encoding where
  sum := fun _ => []
  header := fun header =>
    hash32 (if header = forwardHeader firstFaulty 1 then 1
      else if header = forwardHeader firstFaulty 2 then 2
      else if header = forwardHeader firstFaulty 3 then 3
      else 0)
  validators := fun vals => hash32 (valsTag vals)
  duplicateVote := fun _ => []

def forHeader (firstFaulty : Bool) (w : Vote) : Bool :=
  1 ≤ w.height && w.height ≤ 3 && w.blockID.hash = (forwardEncoding firstFaulty).header
          (forwardHeader firstFaulty w.height)

/-- A signature is the key. The correct validator signs votes for headers of
the chain only, the faulty one signs everything. -/
def forwardVerifier (firstFaulty : Bool) : Verifier where
  address := id
  verifySignature pubKey msg sig := sig = pubKey && (msg = [1] || pubKey = faultyKey)
  voteSignBytes _ w := if forHeader firstFaulty w then [1] else [0]
  voteExtensionSignBytes _ _ := []
  keyType _ := .secp256k1
  batchAdd _ _ _ _ := false
  batchVerify _ _ := (false, [])

variable (firstFaulty : Bool)

lemma forwardVerifier_lawful : (forwardVerifier firstFaulty).Lawful := by
  refine ⟨fun _ _ _ _ h => (nomatch h), fun type batch hne hadd => ?_⟩
  obtain ⟨e, rest, rfl⟩ := List.exists_cons_of_ne_nil hne
  exact absurd (hadd e List.mem_cons_self) Bool.false_ne_true

lemma hash32_inj {a b : UInt8} (h : hash32 a = hash32 b) : a = b :=
  List.replicate_right_injective (by decide) h

lemma content_of_valsTag {firstFaulty : Bool} {h : Int} {other : ReceivedSet}
    (heq : valsTag other = valsTag (forwardVals firstFaulty h)) :
    content other = content (forwardVals firstFaulty h) := by
  unfold forwardVals at heq ⊢
  split at heq
  next hfirst =>
    rw [if_pos hfirst]
    rw [valsTag] at heq
    split_ifs at heq with hc hf
    · exact absurd heq (by decide)
    · exact hf
    exact absurd heq (by decide)
  next hfirst =>
  rw [if_neg hfirst]
  rw [valsTag] at heq
  split_ifs at heq with hc hf
  · exact hc
  all_goals exact absurd heq (by decide)

def forwardChain (firstFaulty : Bool) : LightChain (forwardVerifier firstFaulty)
      (forwardEncoding firstFaulty) where
  chainID := "hetu"
  initial := 1
  last := 3
  header := forwardHeader firstFaulty
  vals := forwardVals firstFaulty
  faulty := fun pubKey => pubKey = faultyKey
  header_height := fun _ _ _ => rfl
  header_chainID := fun _ _ _ => rfl
  validatorsHash := fun _ _ _ => rfl
  nextValidatorsHash := fun _ _ _ => rfl
  time_lt := by
    intro h _ _
    show 10 * h < 10 * (h + 1)
    omega
  correct := by
    intro pubKey w sig hcorrect _ _ hverify
    have hne : pubKey ≠ faultyKey := by simpa using hcorrect
    dsimp only [forwardVerifier] at hverify
    simp only [Bool.and_eq_true, Bool.or_eq_true, decide_eq_true_eq, hne, or_false] at hverify
    have hfor : forHeader firstFaulty w = true := by
      by_contra hno
      rw [if_neg hno] at hverify
      exact absurd hverify.2 (by decide)
    unfold forHeader at hfor
    simp only [Bool.and_eq_true, decide_eq_true_eq] at hfor
    exact ⟨hfor.1.1, hfor.1.2, hfor.2⟩
  header_only := by
    intro h hinitial hlast other heq
    have htag := hash32_inj heq
    have hne : ∀ {i j : Int}, i ≠ j → forwardHeader firstFaulty i ≠ forwardHeader firstFaulty j :=
      fun hij heq => hij (congrArg Header.height heq)
    obtain rfl | rfl | rfl : h = 1 ∨ h = 2 ∨ h = 3 := by omega
    · rw [if_pos rfl] at htag
      split_ifs at htag <;> first | assumption | exact absurd htag (by decide)
    · rw [if_neg (hne (by decide)), if_pos rfl] at htag
      split_ifs at htag <;> first | assumption | exact absurd htag (by decide)
    rw [if_neg (hne (by decide)), if_neg (hne (by decide)), if_pos rfl] at htag
    split_ifs at htag <;> first | assumption | exact absurd htag (by decide)
  vals_only := fun _ _ _ _ heq => content_of_valsTag (hash32_inj heq)

lemma forwardChain_safe (trustingPeriod : Int)
    (now : Time) : (forwardChain firstFaulty).Safe trustingPeriod now := by
  intro h hinitial _ _
  have hnext : forwardVals firstFaulty (h + 1) = soleValidator correctKey := by
    have : (1 : Int) ≤ h := hinitial
    exact if_neg (by omega)
  show MinorityFaulty _ (forwardVals firstFaulty (h + 1))
  rw [hnext]
  show 3 * faultyPower (fun pubKey => pubKey = faultyKey)
    (soleValidator correctKey) < (soleValidator correctKey).totalVotingPower
  decide

def firstBlock (firstFaulty : Bool) : LightBlock :=
  ⟨⟨forwardHeader firstFaulty 1, ⟨0, 0, .zero, []⟩⟩, forwardVals firstFaulty 1⟩

lemma forwardChain_has_first :
    (forwardChain firstFaulty).Has (firstBlock firstFaulty) :=
  ⟨⟨le_refl _, show (1 : Int) ≤ 3 by decide, rfl⟩, rfl⟩

def forgedBlock : LightBlock where
  header :=
    { forwardHeader false 3 with validatorsHash := hash32 2, nextValidatorsHash := hash32 2 }
  commit := ⟨3, 0, ⟨hash32 0, ⟨1, hash32 0⟩⟩, [⟨.commit, faultyKey, 30, faultyKey⟩]⟩
  validatorSet := soleValidator faultyKey

def thirdBlock : LightBlock where
  header := forwardHeader false 3
  commit := ⟨3, 0, ⟨hash32 3, ⟨1, hash32 3⟩⟩, [⟨.commit, correctKey, 30, correctKey⟩]⟩
  validatorSet := soleValidator correctKey

def hugeThird : Fraction := ⟨6148914691236517205, 18446744073709551615, by decide, by decide⟩

def noBlocks : Source := fun _ _ => .error .lightBlockNotFound

-- ==== the theorem

/-- Everything that is accepted by verification after verification is of the
chain, if the trust level has a denominator below 2^63 and the validators
that headers are checked with are trusted; and `verifySkipping` ends. -/
theorem forward_sound_and_ends {c : Verifier} (hc : c.Lawful)
    {enc : Encoding} (chain : LightChain c enc) (opts : Options)
    (htrust : validateTrustLevel opts.trustLevel = true)
    (hden : opts.trustLevel.denominator < 2 ^ 63) :
    (∀ trusted, chain.Has trusted →
      ∀ attempts : List Attempt, (∀ a ∈ attempts, chain.Safe
        opts.trustingPeriod a.now) →
        Along (fun before a =>
          (Trust.run c enc opts ⟨trusted, []⟩ before).Meets chain a) []
          attempts →
        chain.Has (Trust.run c enc opts ⟨trusted, []⟩ attempts).trusted
          ∧ ∀ b ∈ (Trust.run c enc opts ⟨trusted, []⟩ attempts).accepted,
            chain.Has b)
      ∧ ∀ now (source : Source) requests trusted new, (∀ n h b, source n h
        = .ok b →
        b.height = h) →
        ∃ fuel result, verifySkipping c enc opts now source fuel requests
          trusted new = some result := by
  refine ⟨fun trusted htrusted attempts hsafe hmeets => ?_,
    fun now source requests trusted new hsource => verifySkipping_ends hsource requests trusted new⟩
  have hstart : Trust.Sound chain ⟨trusted, []⟩ := ⟨htrusted, List.forall_mem_nil _⟩
  have hrun := hstart.run hc ⟨htrust, hden⟩ hsafe hmeets
  exact ⟨hrun.trusted, hrun.accepted⟩

theorem third_block_accepted :
    ((Trust.run (forwardVerifier false) (forwardEncoding false)
      ⟨1000, 10, .third⟩ ⟨firstBlock false, []⟩
      [.skipping 50 noBlocks 5 0 thirdBlock]).accepted.map
      LightBlock.height) = [1, 3]
      ∧ ∀ b ∈ (Trust.run (forwardVerifier false) (forwardEncoding false)
        ⟨1000, 10, .third⟩ ⟨firstBlock false, []⟩
        [.skipping 50 noBlocks 5 0 thirdBlock]).accepted,
        (forwardChain false).Has b := by
  refine ⟨by decide +kernel, ((forward_sound_and_ends
    (forwardVerifier_lawful false) (forwardChain false)
    ⟨1000, 10, .third⟩ (by decide) (by decide)).1 _
    (forwardChain_has_first false)
    [.skipping 50 noBlocks 5 0 thirdBlock] ?_ ⟨?_, trivial⟩).2⟩
  · intro a _
    exact forwardChain_safe false 1000 a.now
  show MinorityFaulty _ (forwardVals false 1)
  unfold MinorityFaulty
  decide

lemma forged_not_of_chain : ¬(forwardChain firstFaulty).Has forgedBlock := by
  intro h
  have hvals := congrArg Header.nextValidatorsHash h.hasHeader.header
  cases firstFaulty
  all_goals exact absurd hvals (by decide)

/-- The made-up block is accepted: by `VerifyNonAdjacent` with a trust level
of one third that takes no signature, and by `verifySkipping` from a header
whose own validators are faulty. In both chains the next validators of every
header are correct. -/
theorem forged_block_accepted :
    ((forwardChain false).Safe 1000 50
      ∧ (forwardChain false).Has (firstBlock false)
      ∧ validateTrustLevel hugeThird = true
      ∧ verifyNonAdjacent (forwardVerifier false) (forwardEncoding false)
        ⟨1000, 10, hugeThird⟩ 50 (firstBlock false).toSignedHeader
        (firstBlock false).validatorSet forgedBlock.toSignedHeader
        forgedBlock.validatorSet = .ok ()
      ∧ ¬(forwardChain false).Has forgedBlock)
      ∧ (forwardChain true).Safe 1000 50
      ∧ (forwardChain true).Has (firstBlock true)
      ∧ validateTrustLevel .third = true
      ∧ (Trust.run (forwardVerifier true) (forwardEncoding true)
        ⟨1000, 10, .third⟩ ⟨firstBlock true, []⟩
        [.skipping 50 noBlocks 5 0 forgedBlock]).trusted.header
        = forgedBlock.header
      ∧ ¬(forwardChain true).Has forgedBlock :=
  ⟨⟨forwardChain_safe false 1000 50, forwardChain_has_first false,
      by decide, by decide +kernel, forged_not_of_chain false⟩,
    forwardChain_safe true 1000 50, forwardChain_has_first true, by decide,
    by decide +kernel, forged_not_of_chain true⟩

end HetuEngine.Light
