/-
The core task of a primary (primary/src/core.rs) with the synchronizer it
calls (primary/src/synchronizer.rs): what it does with one header, vote or
certificate.

# State

`Core` holds the fields of the task, the store it shares with the other
tasks, and what it has put on its channels. The store has two kinds of keys:
a digest, under which headers are stored by id and certificates by digest,
and a digest followed by a worker id, under which an empty value marks a
batch our workers have. Reading a header where a certificate is expected
fails to deserialise.

`log` is the history of what the task created and sent: votes, messages to
other primaries, parents for the proposer, certificates for consensus.

# Failures

A function that returns an error keeps the changes made before it
(`EStateM`). `Failure.error` is the error the source returns;
`Failure.panic` is a failed `expect`, which ends the task. Storage failures
and closed channels are left out.

# Recursion

A header of our own is voted for at once, the vote may complete a
certificate, and processing that certificate may process a header.
`processVote` counts the nested votes still allowed; two are enough
(`Proofs.Effects`), so `Panic.nesting` never happens.
-/
import HetuEngine.Lib.Fallible
import HetuEngine.Primary.Aggregators

namespace HetuEngine.Primary

open Lib Lib.Fallible Narwhal

/-- The messages primaries send each other; requests for certificates go to
another task. -/
inductive Message where
  | header (header : Header)
  | vote (vote : Vote)
  | certificate (certificate : Certificate)

inductive Key where
  | digest (digest : Digest)
  | payload (digest : Digest) (worker : Nat)
  deriving DecidableEq

inductive Value where
  | header (header : Header)
  | certificate (certificate : Certificate)
  | marker

inductive WaiterMessage where
  | syncBatches (missing : List (Digest × Nat)) (header : Header)
  | syncParents (missing : List Digest) (header : Header)

inductive Output where
  /-- `Vote::new`. -/
  | created (vote : Vote)
  /-- A message to all other primaries. -/
  | broadcast (message : Message)
  /-- A message to one primary. -/
  | send (name : PublicKey) (message : Message)
  /-- A quorum of certificates of a round, to the proposer. -/
  | parents (digests : List Digest) (round : Nat)
  /-- A certificate, to consensus. -/
  | consensus (certificate : Certificate)

def Output.asVote : Output → Option Vote
  | .created vote => some vote
  | _ => none

def Output.asDelivered : Output → Option Certificate
  | .consensus certificate => some certificate
  | _ => none

inductive Panic where
  /-- "Failed to process our own vote". -/
  | ownVote
  /-- "Failed to process valid certificate". -/
  | validCertificate
  /-- "Author of valid header is not in the committee". -/
  | notInCommittee
  /-- More nested votes than allowed for. -/
  | nesting
  deriving DecidableEq

inductive Failure where
  | error (e : DagError)
  | panic (p : Panic)

structure Core where
  store : HashMap Key Value
  gcRound : Nat
  lastVoted : HashMap Nat (Finset PublicKey)
  processing : HashMap Nat (Finset Digest)
  currentHeader : Header
  votesAggregator : VotesAggregator
  certificatesAggregators : HashMap Nat CertificatesAggregator
  txHeaderWaiter : List WaiterMessage
  txCertificateWaiter : List Certificate
  log : List Output

namespace Core

def init : Core where
  store := ∅
  gcRound := 0
  lastVoted := ∅
  processing := ∅
  currentHeader := Header.default
  votesAggregator := VotesAggregator.new
  certificatesAggregators := ∅
  txHeaderWaiter := []
  txCertificateWaiter := []
  log := []

def stored (s : Core) (k : Key) : Bool := (s.store.lookup k).isSome

def write (k : Key) (v : Value) (s : Core) : Core := { s with store := s.store.insert k v }

def emit (o : Output) (s : Core) : Core := { s with log := s.log ++ [o] }

def sync (m : WaiterMessage) (s : Core) : Core :=
  { s with txHeaderWaiter := s.txHeaderWaiter ++ [m] }

def suspend (c : Certificate) (s : Core) : Core :=
  { s with txCertificateWaiter := s.txCertificateWaiter ++ [c] }

def mark (h : Header) (s : Core) : Core :=
  { s with processing := HashMap.addTo s.processing h.round h.id }

/-- Note the author of a header as voted for, and create the vote. -/
def castVote (vote : Vote) (s : Core) : Core :=
  { s with
    lastVoted := HashMap.addTo s.lastVoted vote.round vote.origin
    log := s.log ++ [.created vote] }

/-- The votes after another one; a certificate they make is broadcast. -/
def tally (agg : VotesAggregator) (certificate : Option Certificate) (s : Core) : Core :=
  { s with
    votesAggregator := agg
    log := s.log ++ certificate.toList.map fun c => .broadcast (.certificate c) }

def isProcessing (s : Core) (h : Header) : Bool := h.id ∈ HashMap.setAt s.processing h.round

def votes (s : Core) : List Vote := s.log.filterMap Output.asVote

def delivered (s : Core) : List Certificate := s.log.filterMap Output.asDelivered

end Core

abbrev Action (α : Type) := EStateM Failure Core α

def expect {α : Type} (p : Panic) (m : Action α) : Action α :=
  mapError (fun
      | .error _ => .panic p
      | .panic q => .panic q)
    m

structure Setup where
  crypto : Crypto
  name : PublicKey
  committee : Committee
  gcDepth : Nat
  syncRetryDelay : Nat

namespace Setup

variable (p : Setup)

-- ==== synchronizer

def genesis : List (Digest × Certificate) :=
  (Certificate.genesis p.committee).map fun x => (x.digest p.crypto, x)

def isGenesis (digest : Digest) : Bool := p.genesis.any fun x => x.1 = digest

/-- `missing_payload`: false if we have all batches of the payload;
otherwise the header waits for those missing. -/
def missingPayload (header : Header) : Action Bool := do
  if header.author = p.name then return false
  else
    let s ← get
    let missing := header.payload.entries.filter fun e => !s.stored (.payload e.1 e.2)
    if missing = [] then return false
    else
      modify (Core.sync (.syncBatches missing header))
      return true

/-- The loop of `get_parents`: the digests missing and the certificates
found. -/
def findParents (store : HashMap Key Value) :
    List Digest → Except DagError (List Digest × List Certificate)
  | [] => .ok ([], [])
  | digest :: digests =>
    match p.genesis.find? fun x => x.1 = digest with
    | some (_, genesis) => do
        let (missing, parents) ← findParents store digests
        return (missing, genesis :: parents)
    | none =>
      match store.lookup (.digest digest) with
      | some (.certificate certificate) => do
          let (missing, parents) ← findParents store digests
          return (missing, certificate :: parents)
      | some _ => .error .serializationError
      | none => do
          let (missing, parents) ← findParents store digests
          return (digest :: missing, parents)

/-- `get_parents`: the parents if we have them all; otherwise none, and the
header waits for those missing. -/
def getParents (header : Header) : Action (List Certificate) := do
  let s ← get
  let (missing, parents) ← lift .error (p.findParents s.store header.parents.toList)
  if missing = [] then return parents
  else
    modify (Core.sync (.syncParents missing header))
    return []

/-- `deliver_certificate`: whether we have all parents; otherwise the
certificate waits for them. -/
def deliverCertificate (certificate : Certificate) : Action Bool := do
  let s ← get
  if certificate.header.parents.toList.all fun digest =>
      p.isGenesis digest || s.stored (.digest digest) then
    return true
  else
    modify (Core.suspend certificate)
    return false

-- ==== core

/-- The loop of `process_header` over the parents: all from the previous
round. Returns their stake, summed in `u32`. -/
def checkParents (header : Header) : List Certificate → Nat → Except DagError Nat
  | [], stake => .ok stake
  | x :: parents, stake => do
      ensure (u64 (x.round + 1) = header.round) (.malformedHeader header.id)
      checkParents header parents (u32 (stake + p.committee.stake x.origin))

/-- `process_header`, calling `processVote` for a vote of our own. -/
def processHeaderWith (processVote : Vote → Action Unit) (header : Header) : Action Unit := do
  modify (Core.mark header)
  let parents ← p.getParents header
  if parents = [] then return ()
  else
    let stake ← lift .error (p.checkParents header parents 0)
    lift .error (ensure (p.committee.quorumThreshold ≤ stake) (.headerRequiresQuorum header.id))
    if ← p.missingPayload header then return ()
    else
      modify (Core.write (.digest header.id) (.header header))
      let s ← get
      if header.author ∈ HashMap.setAt s.lastVoted header.round then return ()
      else
        let vote := Vote.new p.crypto header p.name
        modify (Core.castVote vote)
        if vote.origin = p.name then expect .ownVote (processVote vote)
        else
          lift (fun _ => .panic .notInCommittee) (ensure (p.committee.primary header.author)
              (.unknownAuthority header.author))
          modify (Core.emit (.send header.author (.vote vote)))

/-- Note a stored certificate for the proposer, who gets the parents of the
next header when the round has a quorum. -/
def collectParents (certificate : Certificate) (s : Core) : Core :=
  let agg := (s.certificatesAggregators.lookup certificate.round).getD CertificatesAggregator.new
  let next := agg.append p.crypto certificate p.committee
  { s with
    certificatesAggregators := s.certificatesAggregators.insert certificate.round next.2
    log := s.log ++ next.1.toList.map fun parents => .parents parents certificate.round }

/-- The end of `process_certificate`, where nothing fails: the certificate
is stored, counted and sent to consensus. -/
def deliver (certificate : Certificate) (s : Core) : Core :=
  let s := s.write (.digest (certificate.digest p.crypto)) (.certificate certificate)
  (p.collectParents certificate s).emit (.consensus certificate)

/-- The header of a certificate is processed unless it already is. -/
def processEmbedded (processVote : Vote → Action Unit) (header : Header) : Action Unit := do
  let s ← get
  if s.isProcessing header then return ()
  else p.processHeaderWith processVote header

/-- `process_certificate`, calling `processVote` for a vote of our own. -/
def processCertificateWith (processVote : Vote → Action Unit)
    (certificate : Certificate) : Action Unit := do
  p.processEmbedded processVote certificate.header
  if ← p.deliverCertificate certificate then modify (p.deliver certificate)
  else return ()

/-- `process_vote`, with the number of nested votes allowed. -/
def processVote : Nat → Vote → Action Unit
  | 0, _ => throw (.panic .nesting)
  | n + 1, vote => do
      let s ← get
      let (certificate, agg) ← lift .error
        (s.votesAggregator.append vote p.committee s.currentHeader)
      modify (Core.tally agg certificate)
      match certificate with
      | some certificate =>
        expect .validCertificate (p.processCertificateWith (processVote n) certificate)
      | none => return ()

def nesting : Nat := 2

def processHeader (header : Header) : Action Unit :=
  p.processHeaderWith (p.processVote nesting) header

def processCertificate (certificate : Certificate) : Action Unit :=
  p.processCertificateWith (p.processVote nesting) certificate

/-- Make a header our current one: votes are collected for it from now
on. -/
def propose (header : Header) (s : Core) : Core :=
  { s with
    currentHeader := header
    votesAggregator := VotesAggregator.new
    log := s.log ++ [.broadcast (.header header)] }

def processOwnHeader (header : Header) : Action Unit := do
  modify (propose header)
  p.processHeader header

def sanitizeHeader (s : Core) (header : Header) : Except DagError Unit := do
  ensure (s.gcRound ≤ header.round) (.tooOld header.id header.round)
  header.verify p.crypto p.committee

def sanitizeVote (s : Core) (vote : Vote) : Except DagError Unit := do
  ensure (s.currentHeader.round ≤ vote.round) (.tooOld (vote.digest p.crypto) vote.round)
  ensure (vote.id = s.currentHeader.id && vote.origin
    = s.currentHeader.author && vote.round = s.currentHeader.round) (.unexpectedVote vote.id)
  vote.verify p.crypto p.committee

def sanitizeCertificate (s : Core) (certificate : Certificate) : Except DagError Unit := do
  ensure (s.gcRound ≤ certificate.round) (.tooOld (certificate.digest p.crypto) certificate.round)
  certificate.verify p.crypto p.committee

/-- What the core does with a message of another primary. -/
def handle (message : Message) : Action Unit := do
  let s ← get
  match message with
  | .header header =>
    lift .error (p.sanitizeHeader s header)
    p.processHeader header
  | .vote vote =>
    lift .error (p.sanitizeVote s vote)
    p.processVote nesting vote
  | .certificate certificate =>
    lift .error (p.sanitizeCertificate s certificate)
    p.processCertificate certificate

def cleanup (consensusRound : Nat) (s : Core) : Core :=
  if p.gcDepth < consensusRound then
    let gcRound := consensusRound - p.gcDepth
    { s with
      lastVoted := HashMap.retainKeys (gcRound ≤ ·) s.lastVoted
      processing := HashMap.retainKeys (gcRound ≤ ·) s.processing
      certificatesAggregators := HashMap.retainKeys (gcRound ≤ ·) s.certificatesAggregators
      gcRound }
  else s

end Setup

end HetuEngine.Primary
