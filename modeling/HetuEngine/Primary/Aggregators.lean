/-
Collecting votes into a certificate, and certificates into the parents of
the next header (primary/src/aggregators.rs).

Both aggregators add up stake in `u32`, set the sum back to zero when it
reaches the quorum threshold, and then go on: voters and origins already
counted stay in `used`. In a `VotesAggregator`, `used` is the set of voters,
and no voter is there twice.
-/
import HetuEngine.Narwhal.Messages

namespace HetuEngine.Primary

open Lib Lib.Weight Narwhal

def voters (votes : List (PublicKey × Signature)) : List PublicKey := votes.map Prod.fst

-- ==== votes

/-- Aggregates votes for a header into a certificate. -/
structure VotesAggregator where
  weight : Nat
  votes : List (PublicKey × Signature)
  used : Finset PublicKey
  mem_used : ∀ k, k ∈ used ↔ k ∈ voters votes
  voters_nodup : (voters votes).Nodup

namespace VotesAggregator

def new : VotesAggregator where
  weight := 0
  votes := []
  used := ∅
  mem_used k := by simp [voters]
  voters_nodup := List.nodup_nil

/-- The aggregator with one more vote, of a voter it does not have. -/
def push (agg : VotesAggregator) (weight : Nat) (author : PublicKey)
    (signature : Signature) (h : author ∉ agg.used) : VotesAggregator where
  weight := weight
  votes := agg.votes ++ [(author, signature)]
  used := insert author agg.used
  mem_used k := by
    rw [Finset.mem_insert, agg.mem_used]
    simp [voters, or_comm]
  voters_nodup := by
    rw [agg.mem_used] at h
    unfold voters at h ⊢
    rw [List.map_append]
    refine List.Nodup.append agg.voters_nodup (List.nodup_singleton _) ?_
    intro k hk hk'
    cases List.mem_singleton.mp hk'
    exact h hk

/-- `VotesAggregator::append`: the certificate, if the vote completes a
quorum, and the aggregator afterwards. -/
def append (agg : VotesAggregator) (vote : Vote) (com : Committee) (header : Header) :
    Except DagError (Option Certificate × VotesAggregator) :=
  if h : vote.author ∈ agg.used then .error (.authorityReuse vote.author)
  else
    let weight := u32 (agg.weight + com.stake vote.author)
    if com.quorumThreshold ≤ weight then
      let agg := agg.push 0 vote.author vote.signature h
      .ok (some { header, votes := agg.votes }, agg)
    else .ok (none, agg.push weight vote.author vote.signature h)

variable {agg agg' : VotesAggregator} {vote : Vote} {com : Committee} {header : Header}

variable {o : Option Certificate}

/-- What an accepted vote does: it goes to the end of the votes, and a
certificate carries all of them. -/
lemma append_spec (h : agg.append vote com header = .ok (o, agg')) :
    vote.author ∉ agg.used
    ∧ agg'.votes = agg.votes ++ [(vote.author, vote.signature)]
    ∧ ∀ c, o = some c → c = { header, votes := agg'.votes } := by
  unfold append at h
  split at h
  next => cases h
  next hused =>
  simp only at h
  split at h
  · cases h
    refine ⟨hused, rfl, fun c hc => ?_⟩
    cases hc
    rfl
  cases h
  refine ⟨hused, rfl, fun c hc => ?_⟩
  cases hc

/-- The weight never exceeds the stake of the voters: the sum may wrap, and
it starts again from zero after a quorum. -/
def Weighed (com : Committee) (agg : VotesAggregator) : Prop :=
  agg.weight ≤ weigh com.stake (voters agg.votes)

lemma weighed_new (com : Committee) : Weighed com new := Nat.zero_le _

/-- Voting keeps the weight below the stake of the voters, and a
certificate's voters have the stake of a quorum. -/
lemma append_weighed (hw : Weighed com agg)
    (h : agg.append vote com header = .ok (o, agg')) :
    Weighed com agg'
      ∧ ∀ c, o = some c →
        com.quorumThreshold ≤ weigh com.stake (voters c.votes) := by
  obtain ⟨-, hvotes, hcert⟩ := append_spec h
  have hsum : u32 (agg.weight + com.stake vote.author) ≤ weigh com.stake (voters agg'.votes) := by
    refine le_trans (word_le _ _) ?_
    rw [hvotes]
    unfold voters weigh
    simp only [List.map_append, List.sum_append, List.map_cons, List.map_nil, List.sum_singleton]
    exact Nat.add_le_add_right hw _
  unfold append at h
  split at h
  next => cases h
  next hused =>
  simp only at h
  split at h
  next hq =>
    cases h
    refine ⟨Nat.zero_le _, fun c hc => ?_⟩
    rw [hcert c hc]
    exact le_trans hq hsum
  next hq =>
  cases h
  exact ⟨hsum, fun c hc => by cases hc⟩

end VotesAggregator

-- ==== certificates

/-- Aggregates certificates of a round until they have a quorum. -/
structure CertificatesAggregator where
  weight : Nat
  certificates : List Digest
  used : Finset PublicKey

namespace CertificatesAggregator

def new : CertificatesAggregator := ⟨0, [], ∅⟩

/-- `CertificatesAggregator::append`: the digests collected, when the
certificate completes a quorum. A second certificate of an origin is
ignored. -/
def append (agg : CertificatesAggregator) (cr : Crypto)
    (certificate : Certificate) (com : Committee) : Option (List Digest) × CertificatesAggregator :=
  if certificate.origin ∈ agg.used then (none, agg)
  else
    let certificates := agg.certificates ++ [certificate.digest cr]
    let weight := u32 (agg.weight + com.stake certificate.origin)
    let used := insert certificate.origin agg.used
    if com.quorumThreshold ≤ weight then (some certificates, ⟨0, [], used⟩)
    else (none, ⟨weight, certificates, used⟩)

end CertificatesAggregator

end HetuEngine.Primary
