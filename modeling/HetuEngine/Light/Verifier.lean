/-
Forward verification of the light client (light/verifier.go, `verifySkipping`
of light/client.go of hetu-cometbft): a header is accepted on the word of the
validators of a header that is trusted already.

The validators of the next header are known by their hash. Any other header
has to be signed by enough of the trusted validators, which is the trust
level. Where it is not, `verifySkipping` asks for a header in between and
begins there.

A trust level has uint64 parts. `ValidateTrustLevel` multiplies them without
a check, and the commit is verified with both converted to int64. The height
of the header in between is computed with int64 values.
-/
import HetuEngine.EvidencePool.Types
import HetuEngine.Light.Client
import HetuEngine.Lib.Loop

namespace HetuEngine.Light

open Comet EvidencePool

-- ==== one header

/-- `ValidateTrustLevel`, without its error. -/
def validateTrustLevel (lvl : Fraction) : Bool :=
  !(lvl.numerator * 3 % 2 ^ 64 < lvl.denominator
    || lvl.denominator < lvl.numerator
    || lvl.denominator = 0)

def headerExpired (h : SignedHeader) (trustingPeriod : Int) (now : Time) :
    Bool :=
  !(now < h.header.time + trustingPeriod)

inductive InvalidHeader where
  /-- "untrustedHeader.ValidateBasic failed: %w" -/
  | validateBasic
  /-- "expected new header height %d to be greater than one of old header
  %d" -/
  | height
  /-- "expected new header time %v to be after old header time %v" -/
  | time
  /-- "new header has a time from the future %v (now: %v; max clock drift:
  %v)" -/
  | future
  /-- "expected new header validators (%X) to match those that were supplied
  (%X) at height %d" -/
  | validatorsHash
  /-- The error of `VerifyCommitLight`. -/
  | commit (err : VerifyError)
  deriving DecidableEq

inductive LightError where
  /-- "headers must be non adjacent in height" -/
  | adjacent
  /-- "headers must be adjacent in height" -/
  | nonAdjacent
  | oldHeaderExpired
  | invalidHeader (reason : InvalidHeader)
  | newValSetCantBeTrusted (got needed : Int)
  /-- Another error of `VerifyCommitLightTrusting`. -/
  | trusting (err : TrustingError)
  /-- "expected old header next validators (%X) to match those from new
  header (%X)" -/
  | nextValidators
  deriving DecidableEq

/-- The client's `trustingPeriod`, `maxClockDrift` and `trustLevel`. -/
structure Options where
  trustingPeriod : Int
  maxClockDrift : Int
  trustLevel : Fraction

section

variable (c : Verifier) (enc : Encoding) (opts : Options) (now : Time)

def verifyNewHeaderAndVals (untrustedHeader : SignedHeader)
    (untrustedVals : ReceivedSet) (trustedHeader : SignedHeader) : Except InvalidHeader Unit :=
  if !untrustedHeader.validateBasic enc.header trustedHeader.header.chainID then
    .error .validateBasic
  else if untrustedHeader.header.height ≤ trustedHeader.header.height then .error .height
  else if untrustedHeader.header.time ≤ trustedHeader.header.time then .error .time
  else if now + opts.maxClockDrift ≤ untrustedHeader.header.time then .error .future
  else if untrustedHeader.header.validatorsHash
      ≠ enc.validators untrustedVals then .error .validatorsHash
  else .ok ()

def verifyOwnCommit (trustedHeader untrustedHeader : SignedHeader)
    (untrustedVals : ReceivedSet) : Except LightError Unit :=
  match verifyCommitLight c trustedHeader.header.chainID untrustedVals
      untrustedHeader.commit.blockID untrustedHeader.header.height
      untrustedHeader.commit with
  | .error err => .error (.invalidHeader (.commit err))
  | .ok () => .ok ()

def verifyNonAdjacent (trustedHeader : SignedHeader) (trustedVals : ReceivedSet)
    (untrustedHeader : SignedHeader) (untrustedVals : ReceivedSet) : Except LightError Unit :=
  if untrustedHeader.header.height = trustedHeader.header.height + 1 then .error .adjacent
  else if headerExpired trustedHeader opts.trustingPeriod now then .error .oldHeaderExpired
  else
    match verifyNewHeaderAndVals enc opts now untrustedHeader untrustedVals trustedHeader with
    | .error reason => .error (.invalidHeader reason)
    | .ok () =>
      match verifyCommitLightTrusting c trustedHeader.header.chainID
          trustedVals untrustedHeader.commit opts.trustLevel with
      | .error (.verify (.notEnoughVotingPowerSigned got needed)) =>
        .error (.newValSetCantBeTrusted got needed)
      | .error err => .error (.trusting err)
      | .ok () => verifyOwnCommit c trustedHeader untrustedHeader untrustedVals

def verifyAdjacent (trustedHeader untrustedHeader : SignedHeader)
    (untrustedVals : ReceivedSet) : Except LightError Unit :=
  if untrustedHeader.header.height ≠ trustedHeader.header.height + 1 then .error .nonAdjacent
  else if headerExpired trustedHeader opts.trustingPeriod now then .error .oldHeaderExpired
  else
    match verifyNewHeaderAndVals enc opts now untrustedHeader untrustedVals trustedHeader with
    | .error reason => .error (.invalidHeader reason)
    | .ok () =>
      if untrustedHeader.header.validatorsHash ≠ trustedHeader.header.nextValidatorsHash then
        .error .nextValidators
      else verifyOwnCommit c trustedHeader untrustedHeader untrustedVals

def verify (trustedHeader : SignedHeader) (trustedVals : ReceivedSet)
    (untrustedHeader : SignedHeader) (untrustedVals : ReceivedSet) : Except LightError Unit :=
  if untrustedHeader.header.height ≠ trustedHeader.header.height + 1 then
    verifyNonAdjacent c enc opts now trustedHeader trustedVals untrustedHeader untrustedVals
  else verifyAdjacent c enc opts now trustedHeader untrustedHeader untrustedVals

end

-- ==== verifySkipping

inductive SkippingError where
  /-- The error of `Verify`, when the provider has no block in between. -/
  | cantBeTrusted (got needed : Int)
  /-- `ErrVerificationFailed`, after an error of `Verify` -/
  | verify (lower upper : Int) (reason : LightError)
  /-- `ErrVerificationFailed`, after an error of the provider -/
  | provider (lower upper : Int) (reason : ProviderError)
  /-- An index out of range, which does not happen. -/
  | panics

/-- A provider: its answer to each request for a height. -/
abbrev Source := Nat → Int → Except ProviderError LightBlock

/-- The variables of `verifySkipping`, and the number of requests made to the
provider. -/
structure Skipping where
  blockCache : List LightBlock
  depth : Nat
  verifiedBlock : LightBlock
  trace : List LightBlock
  requests : Nat

def verifySkippingNumerator : Int := 9

def verifySkippingDenominator : Int := 16

def pivotHeight (verified untrusted : Int) : Int :=
  verified + (wrap64 ((untrusted - verified) * verifySkippingNumerator)).tdiv
        verifySkippingDenominator

/-- What `verifySkipping` returns: the trace, with the number of requests
made to the provider, or an error. -/
abbrev SkippingResult := Except SkippingError (List LightBlock × Nat)

namespace Skipping

variable (c : Verifier) (enc : Encoding) (opts : Options) (now : Time) (source : Source)

/-- The case of `ErrNewValSetCantBeTrusted`: a block in between is put at the
end of the cache, twice, if there is no other one yet. -/
def deepen (st : Skipping) (block : LightBlock) (got needed : Int) : Skipping ⊕ SkippingResult :=
  if st.depth + 1 = st.blockCache.length then
    let pivot := pivotHeight st.verifiedBlock.height block.height
    match source st.requests pivot with
    | .ok interimBlock =>
      .inl { st with
        blockCache := st.blockCache ++ [interimBlock] ++ [interimBlock]
        depth := st.depth + 1
        requests := st.requests + 1 }
    | .error err =>
      if err.isBenign then .inr (.error (.cantBeTrusted got needed))
      else .inr (.error (.provider st.verifiedBlock.height pivot err))
  else .inl { st with depth := st.depth + 1 }

/-- The case of no error: the block is the new lower bound, if it is not the
last one. -/
def advance (st : Skipping) (block : LightBlock) : Skipping ⊕ SkippingResult :=
  if st.depth = 0 then .inr (.ok (st.trace ++ [block], st.requests))
  else
    .inl { st with
      verifiedBlock := block
      blockCache := st.blockCache.take st.depth
      depth := 0
      trace := st.trace ++ [block] }

def step (st : Skipping) : Skipping ⊕ SkippingResult :=
  match st.blockCache[st.depth]? with
  | none => .inr (.error .panics)
  | some block =>
    match verify c enc opts now st.verifiedBlock.toSignedHeader
        st.verifiedBlock.validatorSet block.toSignedHeader
        block.validatorSet with
    | .ok () => st.advance block
    | .error (.newValSetCantBeTrusted got needed) => st.deepen source block got needed
    | .error err => .inr (.error (.verify st.verifiedBlock.height block.height err))

def start (requests : Nat) (trustedBlock newLightBlock : LightBlock) : Skipping where
  blockCache := [newLightBlock]
  depth := 0
  verifiedBlock := trustedBlock
  trace := [trustedBlock]
  requests := requests

end Skipping

/-- `verifySkipping`, for at most `fuel` rounds of its loop. -/
def verifySkipping (c : Verifier) (enc : Encoding) (opts : Options) (now : Time) (source : Source)
    (fuel requests : Nat) (trustedBlock newLightBlock : LightBlock) : Option SkippingResult :=
  Lib.Loop.run (Skipping.step c enc opts now source) fuel
    (Skipping.start requests trustedBlock newLightBlock)

end HetuEngine.Light
