/-
The light client's providers (light/client.go, light/provider of
hetu-cometbft): one primary, from which it takes blocks, and the witnesses
it compares them with.

Providers are known by name only (`π`); what they answer is part of the
`World`, which may give another answer to each request. Goroutines that ask
the witnesses write to one channel, which is read in some order
(`Lib.FanIn`).

The primary is replaced in `findNewPrimary` only: by `lightBlockFromPrimary`
when the primary does not serve a block, and by the verification methods
when its block does not verify. Witnesses are removed by `removeWitnesses`
only: in `findNewPrimary`, in `detectDivergence` and in
`compareFirstLightBlockWithWitnesses`.

# Backwards verification

A header below the first trusted one is reached by following the
`LastBlockID` of each header to the one before it. The answers to the
requests for these headers are consumed in order, by `lightBlockFromPrimary`
and, when a header does not verify, by `findNewPrimary`.
-/
import HetuEngine.Comet.Header
import HetuEngine.Lib.FanIn
import Mathlib.Data.List.Sort

namespace HetuEngine.Light

open Comet

-- ==== providers

inductive ProviderError where
  | noResponse
  | lightBlockNotFound
  | heightTooHigh
  | canceled
  | deadlineExceeded
  /-- `ErrBadLightBlock` and every other error; it may wrap an error of the
  context -/
  | other (wrapsContext : Bool)

namespace ProviderError

def isContext : ProviderError → Bool
  | canceled => true
  | deadlineExceeded => true
  | other wrapsContext => wrapsContext
  | _ => false

/-- The errors for which a provider is kept. -/
def isBenign : ProviderError → Bool
  | noResponse => true
  | lightBlockNotFound => true
  | heightTooHigh => true
  | _ => false

end ProviderError

/-- What the client rests on: hashes, the providers' answers and the
verification of one block from another. The second argument of `lightBlock`
and `verifySkipping` counts the requests made to the provider before. -/
structure World (π ε : Type) where
  hash : Header → Bytes
  sum : Bytes → Bytes
  lightBlock : π → Nat → Int → Except ProviderError LightBlock
  /-- "LightBlock returns the LightBlock that corresponds to the given
  height. 0 - the latest." -/
  lightBlock_height : ∀ provider request height block, height ≠ 0 →
    lightBlock provider request height = .ok block → block.height = height
  /-- `Client.verifySkipping` with a source, and how many requests the
  source has had afterwards -/
  verifySkipping : π → Nat → LightBlock → LightBlock → Except ε (List LightBlock × Nat)

-- ==== the client

structure Client (π : Type) where
  primary : π
  witnesses : List π

variable {π ε : Type}

/-- One round of the loop of `removeWitnesses`: the last witness takes the
place of the removed one. -/
def replaceByLast (witnesses : List π) (index : Nat) : List π :=
  match witnesses.getLast? with
  | none => witnesses
  | some last => (witnesses.set index last).dropLast

/-- `removeWitnesses`, `none` for `ErrNoWitnesses`. -/
def removeWitnesses (witnesses : List π) (indexes : List Nat) : Option (List π) :=
  if witnesses.length ≤ indexes.length then none
  else some ((indexes.insertionSort (· ≤ ·)).reverse.foldl replaceByLast witnesses)

/-- What `findNewPrimary` reads from its channel: which witness, and its
answer. -/
abbrev WitnessResponse := Nat × Except ProviderError LightBlock

inductive PrimaryError where
  | noWitnesses
  | provider (err : ProviderError)

/-- The loop of `findNewPrimary` over the responses as they come in, with
`witnessesToRemove` and `lastError`. At the end of the responses `lastError`
is that of the last of them; the `nil` error that the source would return
without any response is not reached, as there are witnesses. -/
def findLoop (client : Client π) (remove : Bool) :
    List WitnessResponse → List Nat → ProviderError → Except PrimaryError LightBlock × Client π
  | [], witnessesToRemove, lastError =>
    (.error (.provider lastError),
      match removeWitnesses client.witnesses witnessesToRemove with
      | none => client
      | some witnesses => { client with witnesses := witnesses })
  | (index, .ok lb) :: _, witnessesToRemove, _ =>
    let witnesses :=
      if remove then client.witnesses
      else client.witnesses ++ [client.primary]
    let primary := (witnesses[index]?).getD client.primary
    match removeWitnesses witnesses (witnessesToRemove ++ [index]) with
    | none => (.error .noWitnesses, ⟨primary, witnesses⟩)
    | some witnesses => (.ok lb, ⟨primary, witnesses⟩)
  | (index, .error err) :: rest, witnessesToRemove, _ =>
    if err.isBenign then findLoop client remove rest witnessesToRemove err
    else findLoop client remove rest (witnessesToRemove ++ [index]) err

/-- `findNewPrimary`, for the responses in the order they come in. -/
def findNewPrimary (client : Client π) (remove : Bool) (responses : List WitnessResponse) :
    Except PrimaryError LightBlock × Client π :=
  if client.witnesses.length = 0 then (.error .noWitnesses, client)
  else findLoop client remove responses [] .noResponse

/-- `lightBlockFromPrimary`, with the answer of the primary and, if it comes
to that, those of the witnesses. -/
def lightBlockFromPrimary (client : Client π) (answer : Except ProviderError LightBlock)
    (responses : List WitnessResponse) : Except PrimaryError LightBlock × Client π :=
  match answer with
  | .ok l => (.ok l, client)
  | .error .canceled => (.error (.provider .canceled), client)
  | .error .deadlineExceeded => (.error (.provider .deadlineExceeded), client)
  | .error err => findNewPrimary client (!err.isBenign) responses

-- ==== one step backwards

/-- The errors of `VerifyBackwards`, all of them `ErrInvalidHeader`. -/
inductive BackwardsError where
  | invalid (err : HeaderError)
  /-- "header belongs to another chain" -/
  | otherChain
  /-- "expected older header time to be before new header time" -/
  | notBefore
  /-- "older header hash does not match trusted header's last block" -/
  | hashMismatch

def verifyBackwards (hash : Header → Bytes)
    (untrustedHeader trustedHeader : Header) : Except BackwardsError Unit :=
  match untrustedHeader.validateBasic with
  | .error err => .error (.invalid err)
  | .ok () =>
    if untrustedHeader.chainID ≠ trustedHeader.chainID then .error .otherChain
    else if ¬ untrustedHeader.time < trustedHeader.time then .error .notBefore
    else if hash untrustedHeader ≠ trustedHeader.lastBlockID.hash then .error .hashMismatch
    else .ok ()

-- ==== the loop

/-- What a request for a light block gets, for each height. -/
structure Answer where
  lightBlock : Int → Except PrimaryError LightBlock
  /-- "LightBlock returns the LightBlock that corresponds to the given
  height. 0 - the latest." -/
  lightBlock_height : ∀ height block, height ≠ 0 →
    lightBlock height = .ok block → block.height = height

inductive BackwardsFailure where
  /-- "failed to obtain the header at height" -/
  | fetch (err : PrimaryError)
  | verification (err : BackwardsError)

/-- How far `backwards` comes with some answers: it waits for another one,
or returns and leaves answers. -/
inductive Backwards where
  | waiting
  | returned (result : Except BackwardsFailure Unit) (left : List Answer)

/-- `backwards`. The answers go to `lightBlockFromPrimary` in the loop, and
to `findNewPrimary` when a header does not verify. -/
def backwards (hash : Header → Bytes) : List Answer → Header → Header → Backwards
  | answers, verifiedHeader, newHeader =>
    if ¬ newHeader.height < verifiedHeader.height then .returned (.ok ()) answers
    else
      match answers with
      | [] => .waiting
      | answer :: rest =>
        match answer.lightBlock (verifiedHeader.height - 1) with
        | .error err => .returned (.error (.fetch err)) rest
        | .ok interimBlock =>
          match verifyBackwards hash interimBlock.header verifiedHeader with
          | .ok () => backwards hash rest interimBlock.header newHeader
          | .error err =>
            match rest with
            | [] => .waiting
            | replacement :: rest =>
              match replacement.lightBlock newHeader.height with
              | .error _ => .returned (.error (.verification err)) rest
              | .ok newPrimarysBlock =>
                if hash newPrimarysBlock.header ≠ hash newHeader then
                  .returned (.error (.verification err)) rest
                else
                  -- the same again with the new primary
                  backwards hash rest verifiedHeader newPrimarysBlock.header

-- ==== the trusted store

/-- The trusted store, by height from the lowest, and never empty once the
client is initialised. -/
structure TrustedStore where
  blocks : List LightBlock
  nonempty : blocks ≠ []
  ascending : blocks.Pairwise fun a b => a.height < b.height

namespace TrustedStore

def first (store : TrustedStore) : LightBlock := store.blocks.head store.nonempty

/-- The block of `LastLightBlockHeight`, the client's
`latestTrustedBlock`. -/
def last (store : TrustedStore) : LightBlock := store.blocks.getLast store.nonempty

def lightBlockBefore (store : TrustedStore) (height : Int) : Option LightBlock :=
  (store.blocks.filter fun block => block.height < height).getLast?

end TrustedStore

/-- How `verifyLightBlock` checks a new block. -/
inductive Check where
  /-- `verifyFunc` from a trusted block -/
  | forwards (trusted : LightBlock)
  /-- `backwards` from the header of a trusted block -/
  | backwards (trusted : LightBlock)
  /-- "can't get signed header before height" -/
  | noneBefore

/-- The switch of `verifyLightBlock`. The new block is stored exactly if the
check returns no error. -/
def verifyLightBlock (store : TrustedStore) (newLightBlock : LightBlock) :
    Check :=
  if store.last.height ≤ newLightBlock.height then .forwards store.last
  else if newLightBlock.height < store.first.height then .backwards store.first
  else
    match store.lightBlockBefore newLightBlock.height with
    | some closestBlock => .forwards closestBlock
    | none => .noneBefore

end HetuEngine.Light
