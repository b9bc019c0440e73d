/-
The light client's cross-check (light/detector.go, the comparison of
light/client.go of hetu-cometbft): a block that the primary sent and that
verifies is compared with what the witnesses have at its height.

One goroutine per witness runs `compareNewLightBlockWithWitness` and writes
what it finds to a channel; `detectDivergence` takes as many messages as
there are witnesses. A goroutine may write more than one: after a conflict,
or proposer priorities that differ, it goes on to the lines below.
-/
import HetuEngine.Light.Client

namespace HetuEngine.Light

open Comet

variable {π ε : Type} (world : World π ε)

-- ==== comparison

/-- What the comparison of a header with a witness may write to the channel
(with the index of the witness, which the channel knows here). -/
inductive Message where
  | nil
  | conflictingHeaders (block : LightBlock)
  | badWitness (reason : ProviderError)
  | proposerPrioritiesDiverge (witnessHash primaryHash : Bytes)
  /-- any other error -/
  | err (err : ProviderError)

/-- `getTargetBlockOrLatest`, after `request` requests to the witness, and
how many it has had afterwards. -/
def getTargetBlockOrLatest (height : Int) (witness : π) (request : Nat) :
    Except ProviderError (Bool × LightBlock) × Nat :=
  match world.lightBlock witness request 0 with
  | .error err => (.error err, request + 1)
  | .ok lightBlock =>
    if lightBlock.height = height then (.ok (true, lightBlock), request + 1)
    else if height < lightBlock.height then
      match world.lightBlock witness (request + 1) height with
      | .error err => (.error err, request + 2)
      | .ok lightBlock => (.ok (true, lightBlock), request + 2)
    else (.ok (false, lightBlock), request + 1)

/-- How the switch of `compareNewLightBlockWithWitness` ends: with a block
of the target height, or with a message and a return. -/
inductive Reply where
  | block (lightBlock : LightBlock)
  | message (m : Message)

/-- The switch of `compareNewLightBlockWithWitness` on the witness's answer,
and how many requests the witness has had. -/
def fetch (l : LightBlock) (witness : π) : Reply × Nat :=
  match world.lightBlock witness 0 l.height with
  | .ok lightBlock => (.block lightBlock, 1)
  | .error .noResponse => (.message (.err .noResponse), 1)
  | .error .lightBlockNotFound => (.message (.err .lightBlockNotFound), 1)
  | .error .deadlineExceeded => (.message (.err .deadlineExceeded), 1)
  | .error .canceled => (.message (.err .canceled), 1)
  | .error .heightTooHigh =>
    match getTargetBlockOrLatest world l.height witness 1 with
    | (.error err, requests) => (.message (.err err), requests)
    | (.ok (true, lightBlock), requests) => (.block lightBlock, requests)
    | (.ok (false, lightBlock), requests) =>
      if ¬ lightBlock.time < l.time then (.message (.conflictingHeaders lightBlock), requests)
      else
        -- the witness is behind: after a while it is asked again
        match getTargetBlockOrLatest world l.height witness requests with
        | (.error err, requests) =>
          if err.isContext then (.message (.err err), requests)
          else (.message (.badWitness err), requests)
        | (.ok (true, lightBlock), requests) => (.block lightBlock, requests)
        | (.ok (false, lightBlock), requests) =>
          if ¬ lightBlock.time < l.time then (.message (.conflictingHeaders lightBlock), requests)
          else (.message (.err .noResponse), requests)
  | .error (.other wrapsContext) => (.message (.badWitness (.other wrapsContext)), 1)

/-- The rest of `compareNewLightBlockWithWitness`: the messages written once
the witness has a block of the target height. Neither of the first two ends
the function. -/
def compareHeaders (l lightBlock : LightBlock) : List Message :=
  let wanted := l.validatorSet.proposerPriorityHash world.sum
  let got := lightBlock.validatorSet.proposerPriorityHash world.sum
  (if world.hash l.header ≠ world.hash lightBlock.header then
    [.conflictingHeaders lightBlock] else [])
    ++ (if wanted ≠ got then [.proposerPrioritiesDiverge got wanted] else []) ++ [.nil]

/-- `compareNewLightBlockWithWitness`: what it writes to the channel. -/
def compareNewLightBlockWithWitness (l : LightBlock) (witness : π) : List Message :=
  match (fetch world l witness).1 with
  | .block lightBlock => compareHeaders world l lightBlock
  | .message m => [m]

/-- The goroutines of one cross-check: witness by witness, what is written
to the channel. -/
def comparisons (l : LightBlock) (witnesses : List π) (index : Nat) : List Message :=
  match witnesses[index]? with
  | some witness => compareNewLightBlockWithWitness world l witness
  | none => []

-- ==== examination

inductive ExamineError (ε : Type) where
  /-- "target block has a height lower than the trusted height" -/
  | targetTooLow
  /-- "sanity check failed: expected traceblock to have a lesser time than
  the target block" -/
  | sanityCheck
  /-- "failed to examine trace" -/
  | source (err : ProviderError)
  /-- "trusted block is different to the source's first block" -/
  | trustedDiffers
  /-- "verifySkipping of conflicting header failed" -/
  | verification (err : ε)
  | noDivergence

def sourceBlock (targetBlock traceBlock : LightBlock) (source : π)
    (request : Nat) : Except ProviderError (LightBlock × Nat) :=
  if traceBlock.height = targetBlock.height then .ok (targetBlock, request)
  else
    match world.lightBlock source request traceBlock.height with
    | .error err => .error err
    | .ok block => .ok (block, request + 1)

/-- The loop of `examineConflictingHeaderAgainstTrace` after the first block
of the trace, with `previouslyVerifiedBlock` and `sourceTrace`. -/
def examineLoop (targetBlock : LightBlock) (source : π) : List LightBlock
    → LightBlock → List LightBlock → Nat → Except (ExamineError ε) (List LightBlock × LightBlock)
  | [], _, _, _ => .error .noDivergence
  | traceBlock :: rest, previouslyVerifiedBlock, sourceTrace, request =>
    if targetBlock.height < traceBlock.height then
      -- a forward lunatic attack
      if targetBlock.time < traceBlock.time then .error .sanityCheck
      else if previouslyVerifiedBlock.height ≠ targetBlock.height then
        match world.verifySkipping source request previouslyVerifiedBlock targetBlock with
        | .error err => .error (.verification err)
        | .ok (sourceTrace, _) => .ok (sourceTrace, traceBlock)
      else .ok (sourceTrace, traceBlock)
    else
      match sourceBlock world targetBlock traceBlock source request with
      | .error err => .error (.source err)
      | .ok (sourceBlock, request) =>
        match world.verifySkipping source request previouslyVerifiedBlock sourceBlock with
        | .error err => .error (.verification err)
        | .ok (sourceTrace, request) =>
          if world.hash sourceBlock.header ≠ world.hash traceBlock.header then
            .ok (sourceTrace, traceBlock)
          else examineLoop targetBlock source rest sourceBlock sourceTrace request

/-- `examineConflictingHeaderAgainstTrace`, after `request` requests to the
source. The trace is not empty. -/
def examineConflictingHeaderAgainstTrace (first : LightBlock)
    (rest : List LightBlock) (targetBlock : LightBlock) (source : π) (request : Nat) :
    Except (ExamineError ε) (List LightBlock × LightBlock) :=
  if targetBlock.height < first.height then .error .targetTooLow
  else
    match sourceBlock world targetBlock first source request with
    | .error err => .error (.source err)
    | .ok (sourceBlock, request) =>
      if world.hash sourceBlock.header ≠ world.hash first.header then .error .trustedDiffers
      else examineLoop world targetBlock source rest sourceBlock [] request

inductive Handled where
  /-- `nil`: the witness could not back its block -/
  | dismissed
  /-- `ErrLightClientAttack` -/
  | attack
  /-- the first or last element of an empty trace is read -/
  | panics

/-- `handleConflictingHeaders`; the primary has had `primaryRequests`
requests before, the witness those of its comparison. -/
def handleConflictingHeaders (primary : π) (primaryRequests : Nat)
    (first : LightBlock) (rest : List LightBlock)
    (challengingBlock : LightBlock) (supportingWitness : π) (witnessRequests : Nat) : Handled :=
  match examineConflictingHeaderAgainstTrace world first rest
      challengingBlock supportingWitness witnessRequests with
  | .error _ => .dismissed
  | .ok ([], _) => .panics
  | .ok (common :: witnessTrace, primaryBlock) =>
    match examineConflictingHeaderAgainstTrace world common witnessTrace
        primaryBlock primary primaryRequests with
    | .error _ => .attack
    | .ok ([], _) => .panics
    | .ok (_ :: _, _) => .attack

-- ==== cross-checks

inductive DetectError where
  /-- "nil or single block primary trace" -/
  | shortTrace
  | noWitnesses
  | lightClientAttack
  | conflictingHeaders
  | proposerPrioritiesDiverge
  /-- an error of the context -/
  | context (err : ProviderError)
  | failedHeaderCrossReferencing
  /-- not an error but a panic of `handleConflictingHeaders` -/
  | panics

/-- What `detectDivergence` does with one message: an error to return, or
whether a header matched and whether the witness is to be removed. -/
def onMessage (handle : Nat → LightBlock → Handled) (index : Nat) :
    Message → Except DetectError (Bool × Bool)
  | .nil => .ok (true, false)
  | .conflictingHeaders block =>
    match handle index block with
    | .dismissed => .ok (false, true)
    | .attack => .error .lightClientAttack
    | .panics => .error .panics
  | .badWitness _ => .ok (false, true)
  | .proposerPrioritiesDiverge _ _ => .error .proposerPrioritiesDiverge
  | .err err => if err.isContext then .error (.context err) else .ok (false, false)

/-- The loop of `detectDivergence` over what it reads from the channel, with
`headerMatched` and `witnessesToRemove`. -/
def detectLoop (handle : Nat → LightBlock → Handled) :
    List (Nat × Message) → Bool → List Nat → Except DetectError (Bool × List Nat)
  | [], headerMatched, witnessesToRemove => .ok (headerMatched, witnessesToRemove)
  | (index, m) :: reads, headerMatched, witnessesToRemove =>
    match onMessage handle index m with
    | .error err => .error err
    | .ok (matched, removed) =>
      detectLoop handle reads (headerMatched || matched)
        (if removed then witnessesToRemove ++ [index] else witnessesToRemove)

/-- The examination of a conflicting block that the witness of an index
sent, after its comparison with `l`. -/
def handle (client : Client π) (primaryRequests : Nat) (l : LightBlock)
    (first : LightBlock) (rest : List LightBlock) (index : Nat) (block : LightBlock) : Handled :=
  match client.witnesses[index]? with
  | none => .panics
  | some witness =>
    handleConflictingHeaders world client.primary primaryRequests first rest
      block witness (fetch world l witness).2

/-- `detectDivergence`, for the messages it reads from the channel: its
result, and the client afterwards. -/
def detectDivergence (client : Client π) (primaryRequests : Nat) (primaryTrace : List LightBlock)
    (reads : List (Nat × Message)) : Except DetectError Unit × Client π :=
  match primaryTrace with
  | [] => (.error .shortTrace, client)
  | [_] => (.error .shortTrace, client)
  | first :: second :: rest =>
    let lastVerifiedBlock := (second :: rest).getLast (List.cons_ne_nil _ _)
    if client.witnesses.length = 0 then (.error .noWitnesses, client)
    else
      match detectLoop
          (handle world client primaryRequests lastVerifiedBlock first
            (second :: rest)) reads false [] with
      | .error err => (.error err, client)
      | .ok (headerMatched, witnessesToRemove) =>
        match removeWitnesses client.witnesses witnessesToRemove with
        | none => (.error .noWitnesses, client)
        | some witnesses =>
          (if headerMatched then .ok ()
            else .error .failedHeaderCrossReferencing,
            { client with witnesses := witnesses })

def compareFirstLoop : List (Nat × Message) → List Nat → Except DetectError (List Nat)
  | [], witnessesToRemove => .ok witnessesToRemove
  | (_, .nil) :: reads, witnessesToRemove => compareFirstLoop reads witnessesToRemove
  | (_, .conflictingHeaders _) :: _, _ => .error .conflictingHeaders
  | (index, .badWitness _) :: reads, witnessesToRemove =>
    compareFirstLoop reads (witnessesToRemove ++ [index])
  | (_, .proposerPrioritiesDiverge _ _) :: _, _ => .error .proposerPrioritiesDiverge
  | (_, .err err) :: reads, witnessesToRemove =>
    if err.isContext then .error (.context err)
    else compareFirstLoop reads witnessesToRemove

/-- `compareFirstLightBlockWithWitnesses`, for the messages it reads from
the channel. -/
def compareFirstLightBlockWithWitnesses (client : Client π)
    (reads : List (Nat × Message)) : Except DetectError Unit × Client π :=
  if client.witnesses.length = 0 then (.error .noWitnesses, client)
  else
    match compareFirstLoop reads [] with
    | .error err => (.error err, client)
    | .ok witnessesToRemove =>
      (.ok (), match removeWitnesses client.witnesses witnessesToRemove with
        | none => client
        | some witnesses => { client with witnesses := witnesses })

end HetuEngine.Light
