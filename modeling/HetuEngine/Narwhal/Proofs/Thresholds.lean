/-
What the thresholds of a committee (config/src/lib.rs) are for: two quorums
share a validity set, a quorum and a validity set share an authority, and the
authorities together are a quorum.

Below a total stake of 2³¹ this is inclusion and exclusion. From there on
`2 * total_votes` wraps, and the quorum threshold is at most a third of the
total. Then the authorities can be split into two quorums, unless one of them
has so much that the others are not a quorum; with such an authority all
three laws hold. At the last two totals `total_votes + 2` wraps as well, and
the empty set reaches the validity threshold.

The sums of `VotesAggregator::append` are over distinct authorities, so they
do not wrap if the total does not.
-/
import HetuEngine.Narwhal.Config

namespace HetuEngine.Narwhal.Committee

open Lib.Weight Finset

def names (com : Committee) : Finset PublicKey := com.authorities.keys.toFinset

def stakeOf (com : Committee) (A : Finset PublicKey) : Nat := ∑ k ∈ A, com.stake k

structure Intersecting (com : Committee) : Prop where
  quorums : ∀ A ⊆ com.names, ∀ B ⊆ com.names, com.quorumThreshold ≤ com.stakeOf A
    → com.quorumThreshold ≤ com.stakeOf B → com.validityThreshold ≤ com.stakeOf (A ∩ B)
  validity : ∀ A ⊆ com.names, ∀ B ⊆ com.names,
    com.quorumThreshold ≤ com.stakeOf A → com.validityThreshold ≤ com.stakeOf B → (A ∩ B).Nonempty
  all : com.quorumThreshold ≤ com.stakeOf com.names

/-- The others have less than a quorum, where twice the total wraps. -/
def Dominates (com : Committee) (k : PublicKey) : Prop :=
  3 * (com.totalStake - com.stake k) + 2 ^ 32 ≤ 2 * com.totalStake

variable {com : Committee}

-- ==== sets of authorities

lemma stakeOf_names (com : Committee) :
    com.stakeOf com.names = com.totalStake := by
  rw [← weigh_keys com, weigh_eq_sum _ com.authorities.keys_nodup]
  rfl

variable {A : Finset PublicKey}

lemma stakeOf_le (h : A ⊆ com.names) : com.stakeOf A ≤ com.totalStake := by
  rw [← stakeOf_names]
  exact sum_le_sum_of_subset h

lemma stakeOf_singleton (com : Committee) (k : PublicKey) :
    com.stakeOf {k} = com.stake k := sum_singleton _ _

/-- A set and the rest of the committee. -/
lemma stakeOf_sdiff (h : A ⊆ com.names) :
    com.stakeOf (com.names \ A) = com.totalStake - com.stakeOf A := by
  have hsum := sum_sdiff (f := com.stake) h
  have hall := stakeOf_names com
  unfold stakeOf at *
  omega

/-- What two sets have together is at most the total and what they share. -/
lemma stakeOf_add_le {B : Finset PublicKey} (hA : A ⊆ com.names)
    (hB : B ⊆ com.names) :
    com.stakeOf A + com.stakeOf B ≤ com.totalStake + com.stakeOf (A ∩ B) := by
  have hunion : (∑ k ∈ A ∪ B, com.stake k) + ∑ k ∈ A ∩ B, com.stake k = _ := sum_union_inter
  have hle := stakeOf_le (union_subset hA hB)
  unfold stakeOf at *
  omega

variable {k : PublicKey}

/-- A set with more than all others have contains the authority. -/
lemma mem_of_rest_lt (hA : A ⊆ com.names)
    (h : com.totalStake - com.stake k < com.stakeOf A) : k ∈ A := by
  by_contra hk
  by_cases hname : k ∈ com.names
  · have hsub : A ⊆ com.names \ {k} := subset_sdiff.mpr ⟨hA, disjoint_singleton_right.mpr hk⟩
    have hle : com.stakeOf A ≤ com.stakeOf (com.names \ {k}) := sum_le_sum_of_subset hsub
    rw [stakeOf_sdiff (singleton_subset_iff.mpr hname), stakeOf_singleton] at hle
    omega
  have hzero : com.stake k = 0 := by
    refine (mem_keys_or_stake_zero com k).resolve_left fun hkey => ?_
    exact hname (List.mem_toFinset.mpr hkey)
  have hle := stakeOf_le hA
  omega

-- ==== the wrapped thresholds

section Overflow

variable (hfit : com.totalStake < 2 ^ 32) (hbig : 2 ^ 31 ≤ com.totalStake)

include hfit

lemma totalVotes_eq : com.totalVotes = com.totalStake := word_of_lt hfit

include hbig

lemma quorumThreshold_wrapped :
    com.quorumThreshold = (2 * com.totalStake - 2 ^ 32) / 3 + 1 := by
  unfold quorumThreshold
  rw [totalVotes_eq hfit, u32, word]
  omega

lemma validityThreshold_wrapped (h : 2 ^ 32 - 2 ≤ com.totalStake) :
    com.validityThreshold = 0 := by
  unfold validityThreshold
  rw [totalVotes_eq hfit, u32, word]
  omega

/-- Without a dominating authority the committee splits into two quorums. -/
lemma exists_split (h : ∀ k ∈ com.names, ¬ com.Dominates k) :
    ∃ A ⊆ com.names, com.quorumThreshold ≤ com.stakeOf A
      ∧ com.quorumThreshold ≤ com.stakeOf (com.names \ A) := by
  have hq := quorumThreshold_wrapped hfit hbig
  by_cases hone : ∃ k ∈ com.names, com.quorumThreshold ≤ com.stake k
  · obtain ⟨k, hk, hquorum⟩ := hone
    have hsub := singleton_subset_iff.mpr hk
    refine ⟨{k}, hsub, by rwa [stakeOf_singleton], ?_⟩
    have hnot := h k hk
    unfold Dominates at hnot
    rw [stakeOf_sdiff hsub, stakeOf_singleton]
    omega
  push Not at hone
  have hall := stakeOf_names com
  obtain ⟨A, hA, hle, hlt⟩ := exists_subset_between
    (quorumThreshold_pos com) hone (by unfold stakeOf at hall; omega)
  refine ⟨A, hA, hle, ?_⟩
  rw [stakeOf_sdiff hA]
  unfold stakeOf
  omega

end Overflow

-- ==== the laws

lemma intersecting_of_lt (hpos : 0 < com.totalStake)
    (hlt : com.totalStake < 2 ^ 31) : com.Intersecting := by
  have hq := quorumThreshold_eq hlt
  have hv := validityThreshold_eq (by omega : com.totalStake < _)
  constructor
  · intro A hA B hB hquorumA hquorumB
    have := stakeOf_add_le hA hB
    omega
  · intro A hA B hB hquorum hvalid
    have hadd := stakeOf_add_le hA hB
    rw [nonempty_iff_ne_empty]
    intro hnone
    rw [hnone, show com.stakeOf ∅ = 0 from sum_empty] at hadd
    omega
  rw [stakeOf_names]
  omega

lemma intersecting_of_dominates (hfit : com.totalStake < 2 ^ 32 - 2)
    (hbig : 2 ^ 31 ≤ com.totalStake) (hk : com.Dominates k) :
    com.Intersecting := by
  have hq := quorumThreshold_wrapped (by omega) hbig
  have hv := validityThreshold_eq hfit
  unfold Dominates at hk
  have hquorum : ∀ A ⊆ com.names, com.quorumThreshold ≤ com.stakeOf A →
      k ∈ A := fun A hA h => mem_of_rest_lt hA (by omega)
  constructor
  · intro A hA B hB hquorumA hquorumB
    have hmem := mem_inter.mpr ⟨hquorum A hA hquorumA, hquorum B hB hquorumB⟩
    have hle : com.stake k ≤ com.stakeOf (A ∩ B) := by
      rw [← stakeOf_singleton]
      exact sum_le_sum_of_subset (singleton_subset_iff.mpr hmem)
    omega
  · intro A hA B hB hquorumA hvalid
    exact ⟨k, mem_inter.mpr ⟨hquorum A hA hquorumA, mem_of_rest_lt hB (by omega)⟩⟩
  rw [stakeOf_names]
  omega

/-- The thresholds of a committee whose total stake fits in a `u32` keep
their laws exactly if there is stake and twice the total does not wrap, or if
one authority outweighs a wrapped quorum threshold. -/
theorem thresholds_intersect_iff (com : Committee)
    (hfit : com.totalStake < 2 ^ 32) :
    com.Intersecting
      ↔ 0 < com.totalStake ∧ com.totalStake < 2 ^ 31
        ∨ com.totalStake < 2 ^ 32 - 2 ∧ 2 ^ 31 ≤ com.totalStake
          ∧ ∃ k, com.Dominates k := by
  constructor
  · intro h
    by_cases hlt : com.totalStake < 2 ^ 31
    · left
      have hall := h.all
      rw [stakeOf_names] at hall
      exact ⟨(quorumThreshold_pos com).trans_le hall, hlt⟩
    right
    have hbig : 2 ^ 31 ≤ com.totalStake := by omega
    have hvalid : com.totalStake < 2 ^ 32 - 2 := by
      by_contra hover
      -- the empty set has the stake of a validity set
      obtain ⟨k, hk⟩ := h.validity com.names subset_rfl ∅ (empty_subset _) h.all (by
          rw [validityThreshold_wrapped hfit hbig (by omega)]
          exact Nat.zero_le _)
      simp at hk
    refine ⟨hvalid, hbig, ?_⟩
    by_contra hnone
    push Not at hnone
    obtain ⟨A, hA, hquorum, hrest⟩ := exists_split hfit hbig fun k _ => hnone k
    have hshared := h.quorums A hA _ sdiff_subset hquorum hrest
    rw [inter_sdiff_self, validityThreshold_eq hvalid] at hshared
    simp only [stakeOf, sum_empty] at hshared
    omega
  rintro (⟨hpos, hlt⟩ | ⟨hvalid, hbig, k, hk⟩)
  · exact intersecting_of_lt hpos hlt
  exact intersecting_of_dominates hvalid hbig hk

def solo : Committee := ⟨⟨[(0, ⟨1, [0], unit_stake_lt⟩)], by simp⟩⟩

/-- Three authorities, of stakes 1, 2 and 3. -/
def trio : Committee where
  authorities := ⟨[(0, ⟨1, [0], by decide⟩), (1, ⟨2, [0], by decide⟩),
    (2, ⟨3, [0], by decide⟩)], by decide⟩

theorem thresholds_intersect_trio :
    trio.totalStake < 2 ^ 32 ∧ trio.quorumThreshold = 5
    ∧ trio.Intersecting :=
  ⟨by decide, by decide, (thresholds_intersect_iff trio (by decide)).mpr
    (.inl ⟨by decide, by decide⟩)⟩

/-- Two authorities of stake 2³⁰ each: either is a quorum. -/
def halves : Committee where
  authorities := ⟨[(0, ⟨2 ^ 30, [0], by decide⟩), (1, ⟨2 ^ 30, [0], by decide⟩)], by decide⟩

/-- The two quorums share nobody, and nobody is not a validity set. -/
theorem thresholds_disjoint :
    halves.totalStake < 2 ^ 32 ∧ {0} ⊆ halves.names
      ∧ halves.quorumThreshold ≤ halves.stakeOf {0} ∧ {1} ⊆ halves.names
      ∧ halves.quorumThreshold ≤ halves.stakeOf {1}
      ∧ ¬ halves.validityThreshold ≤ halves.stakeOf ({0} ∩ {1}) := by
  decide

end HetuEngine.Narwhal.Committee
