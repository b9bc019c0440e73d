/-
When two pieces of evidence are the same infraction.

The pool knows evidence by its hash. For duplicate votes that is the hash of
the whole encoded evidence, with the indices and extensions of the votes,
which neither a signature nor `VerifyDuplicateVote` binds, and with their
times, which a signature binds only as far as it is not valid for two
messages (an ed25519 key of small order has such signatures). For a light client
attack it is the hash of the common height and of what fits into 31 bytes of
the conflicting header's hash.

Accepted evidence of the same infraction agrees in everything else
(`Duplicate` and the chain fix the powers and the evidence's time), so its
hash can differ only by these fields. Evidence with the same hash is the same, or
an attack whose header has the same first 31 bytes of hash; a varint is read
back to the height it was written for (`putVarint_inj`), and the two kinds
are too different in size to be confused.
-/
import HetuEngine.Comet.Proofs.Fingerprint
import HetuEngine.EvidencePool.Proofs.Framing
import HetuEngine.EvidencePool.Proofs.Store

namespace HetuEngine.EvidencePool

open Comet Evidence Pool

-- ==== hashes

lemma length_copied (hash : Bytes) : (copied hash).length = tmhashSize := by
  unfold copied
  simp only [List.length_append, List.length_take, List.length_replicate]
  omega

-- ==== the same infraction

/-- The votes are of one validator for one block, in one height and round,
with one signature. -/
structure SameSigned (v w : Vote) : Prop where
  validatorAddress : v.validatorAddress = w.validatorAddress
  height : v.height = w.height
  round : v.round = w.round
  type : v.type = w.type
  blockID : v.blockID = w.blockID
  signature : v.signature = w.signature

/-- The evidence is built from the same pair of signed votes, or from the
same conflicting header and common height. -/
def SameInfraction : Evidence → Evidence → Prop
  | .duplicateVote d, .duplicateVote e => SameSigned d.voteA e.voteA ∧ SameSigned d.voteB e.voteB
  | .lightClientAttack l, .lightClientAttack m =>
    l.commonHeight = m.commonHeight ∧ l.conflictingBlock.header = m.conflictingBlock.header
  | _, _ => False

/-- The other fields of a vote, all of which are encoded. -/
structure SameRest (v w : Vote) : Prop where
  timestamp : v.timestamp = w.timestamp
  validatorIndex : v.validatorIndex = w.validatorIndex
  extension : v.extension = w.extension
  extensionSignature : v.extensionSignature = w.extensionSignature

/-- What nobody checks is not used to tell the evidence apart: votes that
are the same agree in the other fields too, and hashes of headers with the
same first 31 bytes are equal. -/
def Bound (enc : Encoding) : Evidence → Evidence → Prop
  | .duplicateVote d, .duplicateVote e =>
    SameSigned d.voteA e.voteA → SameSigned d.voteB e.voteB →
      SameRest d.voteA e.voteA ∧ SameRest d.voteB e.voteB
  | .lightClientAttack l, .lightClientAttack m =>
    l.commonHeight = m.commonHeight →
      copied (enc.header l.conflictingBlock.header) = copied (enc.header m.conflictingBlock.header)
      → enc.header l.conflictingBlock.header = enc.header m.conflictingBlock.header
  | _, _ => True

/-- Whatever has been called before, evidence does not pass `CheckEvidence`
once the other one is committed. -/
def CommittedOnce (c : Verifier) (enc : Encoding) (e e' : Evidence) : Prop :=
  ∀ node calls pool, (Pool.empty node).run c enc calls = some pool → pool.isCommitted enc e = true
    → ∀ evList, e' ∈ evList → (pool.checkEvidence c enc evList).2 ≠ .ok ()

-- ==== committed once

variable {c : Verifier} {enc : Encoding}

lemma checkLoop_committed {ev : Evidence} {evs : List Evidence}
    {hashes : List Bytes} {pool : Pool} (hs : pool.Sane enc)
    (hc : pool.isCommitted enc ev = true) (hmem : ev ∈ evs) :
    (checkLoop c enc evs hashes pool).2 ≠ .ok () := by
  induction evs generalizing hashes pool with
  | nil => cases hmem
  | cons e evs ih =>
    unfold checkLoop
    cases hone : pool.checkOne c enc e with
    | error err => intro h; cases h
    | ok pool' =>
      dsimp only
      split
      · intro h
        cases h
      obtain ⟨hchanges, hcases⟩ := changes_checkOne (.inl trivial) hone
      rcases List.mem_cons.mp hmem with rfl | hmem
      · -- its own turn: it is not pending, so it is looked up
        have hnone : pool.isPending enc ev = false :=
          isPending_eq_false.mpr fun e he hkey =>
            hs.disjoint e he (hkey ▸ isCommitted_iff.mp hc)
        unfold checkOne at hone
        rw [hnone, Bool.not_false, Bool.or_true, if_pos rfl, if_pos hc] at hone
        cases hone
      refine ih (hchanges.sane hs) ?_ hmem
      rcases hcases with rfl | rfl
      · exact hc
      exact hc

lemma committedOnce_of_key {e e' : Evidence} (hkey : e.key enc = e'.key enc) :
    CommittedOnce c enc e e' := by
  intro node calls pool hrun hc evList hmem
  refine checkLoop_committed (run_spec (sane_empty node) hrun).1 ?_ hmem
  rw [isCommitted_iff] at hc ⊢
  rwa [← hkey]

-- ==== identities

section

variable {c : Verifier} {enc : Encoding} {chain : Chain}

lemma SameSigned.eq {v w : Vote} (h : SameSigned v w) (hrest : SameRest v w) :
    v = w := by
  cases v
  cases w
  simp only [Vote.mk.injEq]
  exact ⟨h.type, h.height, h.round, h.blockID, hrest.timestamp,
    h.validatorAddress, hrest.validatorIndex, h.signature, hrest.extension,
    hrest.extensionSignature⟩

/-- Accepted evidence of the same votes is the same: the chain fixes what is
not in the votes. -/
lemma duplicateVote_eq {d e : DuplicateVoteEvidence} {node node' : Node}
    (hon : node.On chain) (hon' : node'.On chain)
    (hd : node.verify c enc (.duplicateVote d) = .ok ())
    (he : node'.verify c enc (.duplicateVote e) = .ok ())
    (hA : d.voteA = e.voteA) (hB : d.voteB = e.voteB) : d = e := by
  obtain ⟨htime, idx, val, hdup⟩ := hon.duplicateVote hd
  obtain ⟨htime', idx', val', hdup'⟩ := hon'.duplicateVote he
  have hheight : d.height = e.height := congrArg Vote.height hA
  rw [← hheight] at htime' hdup'
  have hval : val = val' := by
    have hfound := hdup.found
    rw [hA, hdup'.found] at hfound
    cases hfound
    rfl
  rw [← hval] at hdup'
  have hpower := hdup.validatorPower.trans hdup'.validatorPower.symm
  have htotal := hdup.totalVotingPower.trans hdup'.totalVotingPower.symm
  have htimes := htime.trans htime'.symm
  cases d
  cases e
  simp only [DuplicateVoteEvidence.mk.injEq]
  exact ⟨hA, hB, htotal, hpower, htimes⟩

/-- The bytes that are hashed for an attack determine the common height and
what is copied of the header's hash. -/
lemma hashed_attack {l m : LightClientAttackEvidence}
    (hl : 0 < l.commonHeight) (hm : 0 < m.commonHeight)
    (hl' : l.commonHeight ≤ maxInt64) (hm' : m.commonHeight ≤ maxInt64)
    (h : (lightClientAttack l).hashed enc = (lightClientAttack m).hashed enc) :
    l.commonHeight = m.commonHeight
    ∧ copied (enc.header l.conflictingBlock.header)
      = copied (enc.header m.conflictingBlock.header) := by
  obtain ⟨hcopied, hheight⟩ := List.append_inj h ((length_copied _).trans (length_copied _).symm)
  refine ⟨putVarint_inj ⟨?_, hl'⟩ ⟨?_, hm'⟩ hheight, hcopied⟩
  · exact le_of_lt (lt_trans (by decide) hl)
  exact le_of_lt (lt_trans (by decide) hm)

lemma length_hashed_attack (l : LightClientAttackEvidence) :
    ((lightClientAttack l).hashed enc).length
      ≤ tmhashSize + maxVarintLen64 := by
  unfold hashed
  rw [List.length_append, length_copied]
  exact Nat.add_le_add_left (length_putUvarint_le _ _) _

end

/-- Nothing is lost in the encodings and hashes of the evidence: there is no
collision, and the encoding of duplicate votes can be read back and is longer
than what is hashed for an attack. -/
structure ToldApart (enc : Encoding) (e e' : Evidence) : Prop where
  sum : enc.sum (e.hashed enc) = enc.sum (e'.hashed enc) → e.hashed enc = e'.hashed enc
  header : ∀ l m, e = .lightClientAttack l → e' = .lightClientAttack m →
    enc.header l.conflictingBlock.header = enc.header m.conflictingBlock.header →
    l.conflictingBlock.header = m.conflictingBlock.header
  duplicateVote : ∀ d d', e = .duplicateVote d → e' = .duplicateVote d' →
    enc.duplicateVote d = enc.duplicateVote d' → d = d'
  long : ∀ d, e = .duplicateVote d ∨ e' = .duplicateVote d →
    tmhashSize + maxVarintLen64 < (enc.duplicateVote d).length

-- ==== the identity

/-- Evidence that nodes of one chain accept has the same hash exactly if it
is of the same infraction, and then cannot be committed in two blocks,
exactly if what nobody checks is not used to tell it apart. -/
theorem infraction_identity_iff (c : Verifier) (enc : Encoding)
    (chain : Chain) {node node' : Node} (hon : node.On chain)
    (hon' : node'.On chain) {e e' : Evidence} (htold : ToldApart enc e e')
    (hbasic : e.validateBasic c.toCrypto enc = true)
    (hbasic' : e'.validateBasic c.toCrypto enc = true)
    (hheight : e.height ≤ maxInt64) (hheight' : e'.height ≤ maxInt64)
    (hok : node.verify c enc e = .ok ())
    (hok' : node'.verify c enc e' = .ok ()) :
    ((SameInfraction e e' ↔ e.hash enc = e'.hash enc)
      ∧ (SameInfraction e e' → CommittedOnce c enc e e'))
      ↔ Bound enc e e' := by
  cases e with
  | duplicateVote d =>
    cases e' with
    | duplicateVote d' =>
      constructor
      · rintro ⟨hsame, -⟩ hA hB
        have hhash := hsame.mp ⟨hA, hB⟩
        have heq := htold.duplicateVote d d' rfl rfl (htold.sum hhash)
        rw [heq]
        exact ⟨⟨rfl, rfl, rfl, rfl⟩, ⟨rfl, rfl, rfl, rfl⟩⟩
      intro hbound
      have heq : SameInfraction (.duplicateVote d) (.duplicateVote d') → d = d' := by
        rintro ⟨hA, hB⟩
        obtain ⟨hrestA, hrestB⟩ := hbound hA hB
        exact duplicateVote_eq hon hon' hok hok' (hA.eq hrestA) (hB.eq hrestB)
      refine ⟨⟨fun hsame => ?_, fun hhash => ?_⟩, fun hsame => ?_⟩
      · rw [heq hsame]
      · rw [htold.duplicateVote d d' rfl rfl (htold.sum hhash)]
        exact ⟨⟨rfl, rfl, rfl, rfl, rfl, rfl⟩, ⟨rfl, rfl, rfl, rfl, rfl, rfl⟩⟩
      rw [heq hsame]
      exact committedOnce_of_key rfl
    | lightClientAttack m =>
      refine ⟨fun _ => trivial, fun _ => ⟨⟨fun h => h.elim, fun h => ?_⟩, fun h => h.elim⟩⟩
      have hlong := htold.long d (.inl rfl)
      have hshort := @length_hashed_attack enc m
      rw [← htold.sum h] at hshort
      exact absurd hlong (Nat.not_lt.mpr hshort)
  | lightClientAttack l =>
    cases e' with
    | duplicateVote d' =>
      refine ⟨fun _ => trivial, fun _ => ⟨⟨fun h => h.elim, fun h => ?_⟩, fun h => h.elim⟩⟩
      have hlong := htold.long d' (.inr rfl)
      have hshort := @length_hashed_attack enc l
      rw [htold.sum h] at hshort
      exact absurd hlong (Nat.not_lt.mpr hshort)
    | lightClientAttack m =>
      have hpos : ∀ k : LightClientAttackEvidence,
          k.validateBasic c.toCrypto enc.header enc.validators = true → 0 < k.commonHeight := by
        intro k hk
        unfold LightClientAttackEvidence.validateBasic at hk
        simp only [Bool.and_eq_true, decide_eq_true_eq] at hk
        exact hk.1.1.2
      have hhash : ∀ h : l.commonHeight = m.commonHeight, copied
          (enc.header l.conflictingBlock.header) = copied (enc.header m.conflictingBlock.header)
          → (lightClientAttack l).hash enc = (lightClientAttack m).hash enc := by
        intro hcommon hcopied
        unfold Evidence.hash Evidence.hashed
        dsimp only
        rw [hcommon, hcopied]
      constructor
      · rintro ⟨hsame, -⟩ hcommon hcopied
        rw [(hsame.mpr (hhash hcommon hcopied)).2]
      intro hbound
      refine ⟨⟨fun hsame => hhash hsame.1 (by rw [hsame.2]),
        fun h => ?_⟩, fun hsame => committedOnce_of_key ?_⟩
      · obtain ⟨hcommon, hcopied⟩ := hashed_attack (hpos l hbasic)
          (hpos m hbasic') hheight hheight' (htold.sum h)
        exact ⟨hcommon, htold.header l m rfl rfl (hbound hcommon hcopied)⟩
      exact Prod.ext hsame.1 (hhash hsame.1 (by rw [hsame.2]))

/-- The attack of `sampleAttack` with the signatures of both validators. -/
def jointAttack : LightClientAttackEvidence where
  conflictingBlock := {
    header := sampleHeader 1 0 (List.replicate 32 9)
    commit := sampleCommit (sampleHeader 1 0 (List.replicate 32 9))
      [sampleSig 1 1, sampleSig 2 2]
    validatorSet := sampleValidators }
  commonHeight := 1
  byzantineValidators := some [sampleValidator 1 10, sampleValidator 2 1]
  totalVotingPower := 11
  timestamp := 2 * 10 ^ 9

/-- Evidence of one attack with one signature and with two. -/
theorem infraction_identity_attack :
    let e := Evidence.lightClientAttack (sampleAttack 1 [sampleValidator 1 10])
    let e' := Evidence.lightClientAttack jointAttack
    SameInfraction e e' ∧ e.hash sampleEncoding = e'.hash sampleEncoding
    ∧ CommittedOnce sampleVerifier sampleEncoding e e' := by
  intro e e'
  have hsame : SameInfraction e e' := ⟨rfl, rfl⟩
  have hbound : Bound sampleEncoding e e' := fun _ _ => rfl
  have htold : ToldApart sampleEncoding e e' :=
    { sum := fun h => h
      header := by
        intro l m hl hm _
        obtain rfl := Evidence.lightClientAttack.inj hl
        obtain rfl := Evidence.lightClientAttack.inj hm
        rfl
      duplicateVote := fun _ _ hd => nomatch hd
      long := fun _ hd => hd.elim (fun h => nomatch h) (fun h => nomatch h) }
  obtain ⟨hhash, honce⟩ := (infraction_identity_iff sampleVerifier
    sampleEncoding sampleChain (sampleNode_on 2) (sampleNode_on 2) htold
    (by decide +kernel) (by decide +kernel) (by decide) (by decide)
    (by decide +kernel) (by decide +kernel)).mpr hbound
  exact ⟨hsame, hhash.mp hsame, honce hsame⟩

/-- The same signed votes with another index in the first one: both are
valid and accepted, and after the one has been committed the other passes
`CheckEvidence`. -/
theorem infraction_punished_twice :
    (Evidence.duplicateVote (sampleVotes 0)).validateBasic
      sampleVerifier.toCrypto sampleEncoding = true
      ∧ (Evidence.duplicateVote (sampleVotes 1)).validateBasic
        sampleVerifier.toCrypto sampleEncoding = true
      ∧ (sampleNode 3).verify sampleVerifier sampleEncoding
        (.duplicateVote (sampleVotes 0)) = .ok ()
      ∧ (sampleNode 3).verify sampleVerifier sampleEncoding
        (.duplicateVote (sampleVotes 1)) = .ok ()
      ∧ SameInfraction (.duplicateVote (sampleVotes 0))
        (.duplicateVote (sampleVotes 1))
      ∧ (Evidence.duplicateVote (sampleVotes 0)).hash sampleEncoding
        ≠ (Evidence.duplicateVote (sampleVotes 1)).hash sampleEncoding
      ∧ ((Pool.empty (sampleNode 2)).run sampleVerifier sampleEncoding
        [.update (sampleNode 3) [.duplicateVote (sampleVotes 0)]]).any (fun
        pool => pool.isCommitted sampleEncoding
        (.duplicateVote (sampleVotes 0)) && (pool.checkEvidence sampleVerifier
        sampleEncoding [.duplicateVote (sampleVotes 1)]).2 = .ok
        ()) = true := by
  refine ⟨by decide +kernel, by decide +kernel, by decide +kernel,
    by decide +kernel, ⟨⟨rfl, rfl, rfl, rfl, rfl, rfl⟩,
      ⟨rfl, rfl, rfl, rfl, rfl, rfl⟩⟩, by decide +kernel, by decide +kernel⟩

end HetuEngine.EvidencePool
