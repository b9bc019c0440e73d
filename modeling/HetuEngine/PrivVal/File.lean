/-
The validator key kept in files (privval/file.go of hetu-cometbft).

`FilePV` remembers height, round and step of the last vote or proposal it
signed, with the bytes signed and the signature, and persists this before it
returns the signature. A request for an earlier height, round and step is
refused; one for the same is answered with the old signature if the bytes
are the same but for the timestamp.

# What is a parameter

The protobuf encoding of the canonical messages and its decoding
(`Codec`), and what the private key answers, which comes with the request.

# Crashes

A request can crash before or after `LastSignState.Save` has replaced the
file. A panic is a crash too. The restart reads the file; `omitempty` in its
JSON turns empty slices into nil.

# What is added

`released` records the signatures that were returned; nothing reads it.
-/
import HetuEngine.Comet.Types
import Mathlib.Data.Prod.Lex

namespace HetuEngine.PrivVal

open Comet

abbrev Time := Int

abbrev HRS := Int ×ₗ Int ×ₗ Int

def HRS.mk (height round step : Int) : HRS := toLex (height, toLex (round, step))

def stepNone : Int := 0
def stepPropose : Int := 1
def stepPrevote : Int := 2
def stepPrecommit : Int := 3

def prevoteType : Int := 1
def precommitType : Int := 2
def proposalType : Int := 32

/-- `cmtproto.Vote`, the fields used here. -/
structure Vote where
  type : Int
  height : Int
  round : Int
  blockID : BlockID
  timestamp : Time
  signature : Bytes
  extension : Bytes
  extensionSignature : Bytes

structure Proposal where
  height : Int
  round : Int
  polRound : Int
  blockID : BlockID
  timestamp : Time
  signature : Bytes

structure CanonicalVote where
  type : Int
  height : Int
  round : Int
  blockID : Option BlockID
  timestamp : Time
  chainID : String
  deriving DecidableEq

structure CanonicalProposal where
  type : Int
  height : Int
  round : Int
  polRound : Int
  blockID : Option BlockID
  timestamp : Time
  chainID : String
  deriving DecidableEq

structure CanonicalVoteExtension where
  extension : Bytes
  height : Int
  round : Int
  chainID : String

/-- `MarshalDelimited` and `UnmarshalDelimited` of the canonical messages;
nothing is returned on an error. -/
structure Codec where
  marshalVote : CanonicalVote → Option Bytes
  unmarshalVote : Bytes → Option CanonicalVote
  marshalProposal : CanonicalProposal → Option Bytes
  unmarshalProposal : Bytes → Option CanonicalProposal
  marshalExtension : CanonicalVoteExtension → Option Bytes

/-- What the private key returns for the bytes to sign: an error, or a
signature, which is not empty. -/
abbrev Sign := Bytes → Except String { sig : Bytes // sig ≠ [] }

inductive SignError where
  /-- "height regression. Got %v, last height %v" -/
  | heightRegression (got last : Int)
  /-- "round regression at height %v. Got %v, last round %v" -/
  | roundRegression (height got last : Int)
  /-- "step regression at height %v round %v. Got %v, last step %v" -/
  | stepRegression (height round got last : Int)
  /-- "no SignBytes found" -/
  | noSignBytes
  /-- "unexpected vote extension - extensions are only allowed in non-nil
  precommits" -/
  | unexpectedExtension
  /-- The error of the private key. -/
  | sign (msg : String)
  /-- "conflicting data" -/
  | conflictingData

inductive Panic where
  /-- "Unknown vote type: %v" -/
  | unknownVoteType (type : Int)
  /-- "pv: Signature is nil but SignBytes is not!" -/
  | signatureNil
  /-- The block id is not valid. -/
  | invalidBlockID
  /-- The canonical message cannot be encoded. -/
  | marshal
  /-- "LastSignBytes cannot be unmarshalled into …" -/
  | lastSignBytes
  /-- "signBytes cannot be unmarshalled into …" -/
  | newSignBytes

/-- `FilePVLastSignState`; a nil slice is `none`. -/
structure LastSignState where
  height : Int
  round : Int
  step : Int
  signature : Option Bytes
  signBytes : Option Bytes

namespace LastSignState

def new : LastSignState := ⟨0, 0, stepNone, none, none⟩

def hrs (lss : LastSignState) : HRS := .mk lss.height lss.round lss.step

/-- What is read back after `Save`. -/
def stored (lss : LastSignState) : LastSignState :=
  { lss with
    signature := lss.signature.filter fun s => s ≠ []
    signBytes := lss.signBytes.filter fun s => s ≠ [] }

/-- `CheckHRS`: an error, or whether the last signature is to be reused. -/
def checkHRS (lss : LastSignState) (height round step : Int) :
    Except Panic (Except SignError Bool) :=
  if height < lss.height then return .error (.heightRegression height lss.height)
  else if lss.height = height then
    if round < lss.round then return .error (.roundRegression height round lss.round)
    else if lss.round = round then
      if step < lss.step then return .error (.stepRegression height round step lss.step)
      else if lss.step = step then
        match lss.signBytes, lss.signature with
        | some _, none => throw .signatureNil
        | some _, some _ => return .ok true
        | none, _ => return .error .noSignBytes
      else return .ok false
    else return .ok false
  else return .ok false

end LastSignState

def voteToStep (vote : Vote) : Except Panic Int :=
  if vote.type = prevoteType then return stepPrevote
  else if vote.type = precommitType then return stepPrecommit
  else throw (.unknownVoteType vote.type)

def canonicalizeBlockID (id : BlockID) : Except Panic (Option BlockID) :=
  if id.validateBasic then return if id.isZero then none else some id
  else throw .invalidBlockID

/-- Panic on an error of the encoding. -/
def marshalled (bz : Option Bytes) : Except Panic Bytes :=
  match bz with
  | some bz => return bz
  | none => throw .marshal

namespace Codec

variable (p : Codec)

def voteSignBytes (chainID : String) (vote : Vote) : Except Panic Bytes := do
  let blockID ← canonicalizeBlockID vote.blockID
  marshalled (p.marshalVote ⟨vote.type, vote.height, vote.round, blockID, vote.timestamp, chainID⟩)

def proposalSignBytes (chainID : String) (proposal : Proposal) : Except Panic Bytes := do
  let blockID ← canonicalizeBlockID proposal.blockID
  marshalled (p.marshalProposal
    ⟨proposalType, proposal.height, proposal.round, proposal.polRound,
      blockID, proposal.timestamp, chainID⟩)

/-- `VoteExtensionSignBytes` of `CanonicalizeVoteExtension`. -/
def voteExtensionSignBytes (chainID : String) (vote : Vote) : Except Panic Bytes :=
  marshalled (p.marshalExtension ⟨vote.extension, vote.height, vote.round, chainID⟩)

def checkVotesOnlyDifferByTimestamp (lastSignBytes newSignBytes : Bytes) :
    Except Panic (Time × Bool) :=
  match p.unmarshalVote lastSignBytes, p.unmarshalVote newSignBytes with
  | none, _ => throw .lastSignBytes
  | some _, none => throw .newSignBytes
  | some lastVote, some newVote =>
    return (lastVote.timestamp, { newVote with timestamp := 0 } = { lastVote with timestamp := 0 })

def checkProposalsOnlyDifferByTimestamp
    (lastSignBytes newSignBytes : Bytes) : Except Panic (Time × Bool) :=
  match p.unmarshalProposal lastSignBytes, p.unmarshalProposal newSignBytes with
  | none, _ => throw .lastSignBytes
  | some _, none => throw .newSignBytes
  | some last, some new =>
    return (last.timestamp, { new with timestamp := 0 } = { last with timestamp := 0 })

end Codec

/-- How a request ends if it does not panic: the message with what was set
in it, the error returned, and the state passed to `Save`. -/
structure Reply (α : Type) where
  msg : α
  err : Option SignError
  saved : Option LastSignState

/-- The signature of the vote extension, for a precommit of a block. -/
def Codec.signExtension (p : Codec) (sign : Sign) (chainID : String)
    (vote : Vote) : Except Panic (Except SignError Bytes) :=
  if vote.type = precommitType ∧ vote.blockID.isZero = false then do
    let extSignBytes ← p.voteExtensionSignBytes chainID vote
    match sign extSignBytes with
    | .error e => return .error (.sign e)
    | .ok extSig => return .ok extSig.val
  else if 0 < vote.extension.length then return .error .unexpectedExtension
  else return .ok []

/-- What a repeated request is answered with: the last signature, with the
last timestamp if that is all that differs. -/
def LastSignState.reuse (lss : LastSignState) (signBytes : Bytes)
    (check : Bytes → Bytes → Except Panic (Time × Bool)) :
    Except Panic (Option (Option Time × Bytes)) :=
  let lastSignBytes := lss.signBytes.getD []
  let signature := lss.signature.getD []
  if signBytes = lastSignBytes then return some (none, signature)
  else do
    let (timestamp, ok) ← check lastSignBytes signBytes
    return if ok then some (some timestamp, signature) else none

namespace Codec

variable (p : Codec)

/-- `signVote`. The signature of the extension is set even if the vote is
refused as conflicting. -/
def signVote (sign : Sign) (lss : LastSignState) (chainID : String)
    (vote : Vote) : Except Panic (Reply Vote) := do
  let step ← voteToStep vote
  match ← lss.checkHRS vote.height vote.round step with
  | .error e => return ⟨vote, some e, none⟩
  | .ok sameHRS =>
    let signBytes ← p.voteSignBytes chainID vote
    match ← p.signExtension sign chainID vote with
    | .error e => return ⟨vote, some e, none⟩
    | .ok extSig =>
      if sameHRS then
        match ← lss.reuse signBytes p.checkVotesOnlyDifferByTimestamp with
        | none => return ⟨{ vote with extensionSignature := extSig }, some .conflictingData, none⟩
        | some (timestamp, signature) =>
          return ⟨{ vote with
              timestamp := timestamp.getD vote.timestamp
              signature
              extensionSignature := extSig }, none, none⟩
      else match sign signBytes with
        | .error e => return ⟨vote, some (.sign e), none⟩
        | .ok sig =>
          return ⟨{ vote with signature := sig.val, extensionSignature := extSig }, none,
            some ⟨vote.height, vote.round, step, some sig.val, some signBytes⟩⟩

def signProposal (sign : Sign) (lss : LastSignState) (chainID : String)
    (proposal : Proposal) : Except Panic (Reply Proposal) := do
  match ← lss.checkHRS proposal.height proposal.round stepPropose with
  | .error e => return ⟨proposal, some e, none⟩
  | .ok sameHRS =>
    let signBytes ← p.proposalSignBytes chainID proposal
    if sameHRS then
      match ← lss.reuse signBytes p.checkProposalsOnlyDifferByTimestamp with
      | none => return ⟨proposal, some .conflictingData, none⟩
      | some (timestamp, signature) =>
        return ⟨{ proposal with
            timestamp := timestamp.getD proposal.timestamp
            signature }, none, none⟩
    else match sign signBytes with
      | .error e => return ⟨proposal, some (.sign e), none⟩
      | .ok sig =>
        return ⟨{ proposal with signature := sig.val }, none,
          some ⟨proposal.height, proposal.round, stepPropose, some sig.val, some signBytes⟩⟩

end Codec

-- ==== histories

inductive Request where
  | vote (chainID : String) (vote : Vote)
  | proposal (chainID : String) (proposal : Proposal)

inductive Crash where
  | beforeSave
  | afterSave

inductive Event where
  | request (req : Request) (sign : Sign) (crash : Option Crash)
  | restart

/-- A signature that was returned: for what height, round and step, what
bytes the request gave, and whether it is a new signature. -/
structure Release where
  hrs : HRS
  signBytes : Bytes
  signature : Bytes
  fresh : Bool

structure FilePV where
  lastSignState : LastSignState
  persisted : LastSignState
  released : List Release

def FilePV.new : FilePV := ⟨.new, .new, []⟩

def FilePV.restart (pv : FilePV) : FilePV := { pv with lastSignState := pv.persisted }

namespace Request

/-- Height, round and step of a request; nothing for a vote of an unknown
type. -/
def hrs : Request → Option HRS
  | .vote _ v =>
    match voteToStep v with
    | .ok step => some (.mk v.height v.round step)
    | .error _ => none
  | .proposal _ m => some (.mk m.height m.round stepPropose)

def signBytes (p : Codec) : Request → Option Bytes
  | .vote chainID v => (p.voteSignBytes chainID v).toOption
  | .proposal chainID m => (p.proposalSignBytes chainID m).toOption

def signature : Request → Bytes
  | .vote _ v => v.signature
  | .proposal _ m => m.signature

end Request

/-- `SignVote` or `SignProposal`: the signature in the message afterwards,
the error and the state to be saved. -/
def Codec.serve (p : Codec) (sign : Sign) (lss : LastSignState) :
    Request → Except Panic (Reply Bytes)
  | .vote chainID vote => do
      let r ← p.signVote sign lss chainID vote
      return ⟨r.msg.signature, r.err, r.saved⟩
  | .proposal chainID proposal => do
      let r ← p.signProposal sign lss chainID proposal
      return ⟨r.msg.signature, r.err, r.saved⟩

def release (p : Codec) (req : Request) (r : Reply Bytes) : List Release :=
  match r.err, req.hrs, req.signBytes p with
  | none, some hrs, some signBytes => [⟨hrs, signBytes, r.msg, r.saved.isSome⟩]
  | _, _, _ => []

namespace FilePV

variable (p : Codec)

def save (pv : FilePV) (saved : Option LastSignState) : FilePV :=
  match saved with
  | none => pv
  | some lss => { pv with lastSignState := lss, persisted := lss.stored }

def step (pv : FilePV) : Event → FilePV
  | .restart => pv.restart
  | .request req sign crash =>
    match p.serve sign pv.lastSignState req, crash with
    | .error _, _ => pv.restart
    | .ok _, some .beforeSave => pv.restart
    | .ok r, some .afterSave => (pv.save r.saved).restart
    | .ok r, none => { pv.save r.saved with released := pv.released ++ release p req r }

def run (es : List Event) : FilePV := es.foldl (step p) new

lemma run_concat (es : List Event) (e : Event) :
    run p (es ++ [e]) = step p (run p es) e :=
  List.foldl_append

end FilePV

end HetuEngine.PrivVal
