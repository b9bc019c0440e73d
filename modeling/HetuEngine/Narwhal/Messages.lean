/-
Headers, votes and certificates (primary/src/messages.rs), with the checks
a primary runs on them.

# The cryptographic functions

SHA-512 and ed25519 are not part of the repository. `Crypto` has one field
for each function the code calls; nothing is assumed of them here. What is
hashed is the byte string the code feeds to the hasher, so that two messages
with one digest are two byte strings with one hash, or one byte string
spelled by two messages.

# Equality of certificates

`PartialEq` for `Certificate` is written by hand: it compares the header's
id, round and author and nothing else (`Certificate.partialEq`). Lean's `=`
compares every field. `genesis.contains` and `parents.contains` in the code
are the first.
-/
import HetuEngine.Narwhal.Config

namespace HetuEngine.Narwhal

open Lib Lib.Weight

/-- A signature (`crypto::Signature`, 64 bytes); `Signature::default()` is
`0`. -/
abbrev Signature := Fin (2 ^ 512)

instance signature_neZero : NeZero (2 ^ 512) := NeZero.pow

/-- The functions of the hash and signature libraries. -/
structure Crypto where
  /-- The first 32 bytes of SHA-512. -/
  sha512 : List UInt8 → Digest
  /-- What the signature service of the key's owner returns. -/
  sign : PublicKey → Digest → Signature
  verify : Signature → Digest → PublicKey → Bool
  verifyBatch : Digest → List (PublicKey × Signature) → Bool

def leBytes : Nat → Nat → List UInt8
  | 0, _ => []
  | w + 1, n => UInt8.ofNat n :: leBytes w (n / 256)

def Bytes32.bytes (d : Bytes32) : List UInt8 := (leBytes 32 d.val).reverse

inductive DagError where
  | invalidSignature
  | serializationError
  | invalidHeaderId
  | malformedHeader (id : Digest)
  | unknownAuthority (name : PublicKey)
  | authorityReuse (name : PublicKey)
  | unexpectedVote (id : Digest)
  | certificateRequiresQuorum
  | headerRequiresQuorum (id : Digest)
  | tooOld (id : Digest) (round : Nat)
  deriving DecidableEq

def ensure (cond : Bool) (e : DagError) : Except DagError Unit := if cond then .ok () else .error e

@[simp] lemma ensure_eq_ok {cond : Bool} {e : DagError} {u : Unit} :
    ensure cond e = .ok u ↔ cond = true := by
  unfold ensure
  split
  next h => simp [h]
  next h => simp [h]

lemma ensure_bind_eq_ok {α : Type} {cond : Bool} {e : DagError}
    {f : Unit → Except DagError α} {a : α} :
    (ensure cond e >>= f) = .ok a ↔ cond = true ∧ f () = .ok a := by
  unfold ensure
  split
  next h => exact ⟨fun hf => ⟨h, hf⟩, And.right⟩
  next h => exact ⟨fun hf => (by cases hf), fun hf => absurd hf.1 h⟩

-- ==== headers

/-- A header; its round is a `u64`. -/
structure Header where
  author : PublicKey
  round : Nat
  payload : BTreeMap Digest Nat
  parents : BTreeSet Digest
  id : Digest
  signature : Signature
  round_lt : round < 2 ^ 64
  deriving DecidableEq

namespace Header

def default : Header where
  author := 0
  round := 0
  payload := BTreeMap.empty
  parents := BTreeSet.empty
  id := 0
  signature := 0
  round_lt := Nat.two_pow_pos 64

def hashed (h : Header) : List UInt8 :=
  h.author.bytes ++ leBytes 8 h.round ++ h.payload.entries.flatMap
    (fun e => e.1.bytes ++ leBytes 4 e.2) ++ h.parents.toList.flatMap Bytes32.bytes

def digest (cr : Crypto) (h : Header) : Digest := cr.sha512 h.hashed

def new (cr : Crypto) (author : PublicKey) (round : Fin (2 ^ 64))
    (payload : BTreeMap Digest Nat) (parents : BTreeSet Digest) : Header :=
  let header : Header :=
    { author, round, payload, parents, id := 0, signature := 0
      round_lt := round.isLt }
  let id := header.digest cr
  { header with id, signature := cr.sign author id }

def verify (cr : Crypto) (com : Committee) (h : Header) : Except DagError Unit := do
  ensure (h.digest cr = h.id) .invalidHeaderId
  ensure (0 < com.stake h.author) (.unknownAuthority h.author)
  ensure (h.payload.values.all (com.worker h.author)) (.malformedHeader h.id)
  ensure (cr.verify h.signature h.id h.author) .invalidSignature

end Header

-- ==== votes

/-- A vote of `author` for the header `id` of `origin`. -/
structure Vote where
  id : Digest
  round : Nat
  origin : PublicKey
  author : PublicKey
  signature : Signature

/-- The bytes both a vote and a certificate hash: header id, round and
author of the header. -/
def voteBytes (id : Digest) (round : Nat) (origin : PublicKey) : List UInt8 :=
  id.bytes ++ leBytes 8 round ++ origin.bytes

namespace Vote

def digest (cr : Crypto) (v : Vote) : Digest := cr.sha512 (voteBytes v.id v.round v.origin)

def new (cr : Crypto) (header : Header) (author : PublicKey) : Vote :=
  let vote : Vote :=
    { id := header.id, round := header.round, origin := header.author, author, signature := 0 }
  { vote with signature := cr.sign author (vote.digest cr) }

def verify (cr : Crypto) (com : Committee) (v : Vote) : Except DagError Unit := do
  ensure (0 < com.stake v.author) (.unknownAuthority v.author)
  ensure (cr.verify v.signature (v.digest cr) v.author) .invalidSignature

end Vote

-- ==== certificates

structure Certificate where
  header : Header
  votes : List (PublicKey × Signature)
  deriving DecidableEq

namespace Certificate

def round (c : Certificate) : Nat := c.header.round

lemma round_lt (c : Certificate) : c.round < 2 ^ 64 := c.header.round_lt

def origin (c : Certificate) : PublicKey := c.header.author

def digest (cr : Crypto) (c : Certificate) : Digest :=
  cr.sha512 (voteBytes c.header.id c.round c.origin)

def partialEq (c d : Certificate) : Bool :=
  c.header.id = d.header.id && c.round = d.round && c.origin = d.origin

def genesis (com : Committee) : List Certificate :=
  com.authorities.keys.map fun name =>
    { header := { Header.default with author := name }, votes := [] }

/-- The loop of `verify` over the votes: no voter twice, no voter without
stake. Returns the weight, summed in `u32`. -/
def checkVotes (com : Committee) :
    List (PublicKey × Signature) → Nat → List PublicKey → Except DagError Nat
  | [], weight, _ => .ok weight
  | (name, _) :: votes, weight, used => do
      ensure (!used.contains name) (.authorityReuse name)
      ensure (0 < com.stake name) (.unknownAuthority name)
      checkVotes com votes (u32 (weight + com.stake name)) (name :: used)

def verify (cr : Crypto) (com : Committee) (c : Certificate) : Except DagError Unit :=
  if (genesis com).any (partialEq c) then .ok ()
  else do
    c.header.verify cr com
    let weight ← checkVotes com c.votes 0 []
    ensure (com.quorumThreshold ≤ weight) .certificateRequiresQuorum
    ensure (cr.verifyBatch (c.digest cr) c.votes) .invalidSignature

variable {c : Certificate} {com : Committee}

lemma mem_genesis : c ∈ genesis com ↔ c.origin ∈ com.authorities.keys
      ∧ c = { header := { Header.default with author := c.origin }
              votes := [] } := by
  unfold genesis
  rw [List.mem_map]
  constructor
  · rintro ⟨name, hname, rfl⟩
    exact ⟨hname, rfl⟩
  rintro ⟨hname, heq⟩
  exact ⟨_, hname, heq.symm⟩

lemma genesis_round (h : c ∈ genesis com) : c.round = 0 := by
  rw [(mem_genesis.mp h).2]
  rfl

lemma genesis_parents (h : c ∈ genesis com) :
    c.header.parents = BTreeSet.empty := by
  rw [(mem_genesis.mp h).2]
  rfl

lemma partialEq_iff {d : Certificate} :
    partialEq c d = true
      ↔ c.header.id = d.header.id ∧ c.round = d.round
        ∧ c.origin = d.origin := by
  unfold partialEq
  rw [Bool.and_eq_true, Bool.and_eq_true, decide_eq_true_iff,
    decide_eq_true_iff, decide_eq_true_iff, and_assoc]

end Certificate

end HetuEngine.Narwhal
