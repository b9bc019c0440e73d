/-
The committee (config/src/lib.rs): who may take part, with which stake.

Stakes are `u32` and the code sums them in `u32`, in release builds without
overflow checks: the total, `2 * total_votes` and `total_votes + 2` are all
reduced modulo 2³². `quorumThreshold_eq` and `validityThreshold_eq` say
when the reductions do nothing; from 2³¹ on the doubled total wraps and the
quorum threshold falls, down to 1 at exactly 2³¹.

A `Round` (`u64`), a `Stake` and a `WorkerId` (`u32`) are natural numbers
here; `u64`, `u32` and `u64Sub` stand where the code's arithmetic can wrap.
-/
import HetuEngine.Lib.Assoc
import HetuEngine.Lib.Weight

namespace HetuEngine.Narwhal

open Lib Lib.Weight

/-- Thirty-two bytes, as the big-endian number they spell: the byte order
of keys and digests is the order of these numbers. -/
abbrev Bytes32 := Fin (2 ^ 256)

instance bytes32_neZero : NeZero (2 ^ 256) := ⟨by decide⟩

abbrev PublicKey := Bytes32

/-- A hash digest (`crypto::Digest`); `Digest::default()` is `0`. -/
abbrev Digest := Bytes32

abbrev u64 (n : Nat) : Nat := word 64 n

abbrev u32 (n : Nat) : Nat := word 32 n

instance u64_neZero : NeZero (2 ^ 64) := ⟨by decide⟩

lemma one_lt_u64 : 1 < 2 ^ 64 := by decide

abbrev u64Sub (a b : Nat) : Nat := wordSub 64 a b

/-- An authority: its stake and the ids of its workers. -/
structure Authority where
  stake : Nat
  workers : List Nat
  stake_lt : stake < 2 ^ 32

lemma unit_stake_lt : 1 < 2 ^ 32 := by decide

structure Committee where
  authorities : BTreeMap PublicKey Authority

namespace Committee

def size (com : Committee) : Nat := com.authorities.entries.length

def stake (com : Committee) (name : PublicKey) : Nat :=
  (com.authorities.get name).elim 0 Authority.stake

def totalVotes (com : Committee) : Nat := u32 (com.authorities.values.map Authority.stake).sum

def quorumThreshold (com : Committee) : Nat := u32 (2 * com.totalVotes) / 3 + 1

/-- The stake required to reach availability (f+1). -/
def validityThreshold (com : Committee) : Nat := u32 (com.totalVotes + 2) / 3

def primary (com : Committee) (target : PublicKey) : Bool := (com.authorities.get target).isSome

/-- Whether `worker` finds worker `id` of the authority `target`. -/
def worker (com : Committee) (target : PublicKey) (id : Nat) : Bool :=
  match com.authorities.get target with
  | some authority => authority.workers.contains id
  | none => false

-- ==== thresholds

def totalStake (com : Committee) : Nat := (com.authorities.values.map Authority.stake).sum

variable {com : Committee}

lemma quorumThreshold_eq (h : com.totalStake < 2 ^ 31) :
    com.quorumThreshold = 2 * com.totalStake / 3 + 1 := by
  have ht : com.totalVotes = com.totalStake := word_of_lt (by
    show com.totalStake < _
    omega)
  unfold quorumThreshold
  rw [ht, u32, word_of_lt (by omega)]

lemma validityThreshold_eq (h : com.totalStake < 2 ^ 32 - 2) :
    com.validityThreshold = (com.totalStake + 2) / 3 := by
  have ht : com.totalVotes = com.totalStake := word_of_lt (by
    show com.totalStake < _
    omega)
  unfold validityThreshold
  rw [ht, u32, word_of_lt (by omega)]

lemma quorumThreshold_pos (com : Committee) : 0 < com.quorumThreshold :=
  Nat.succ_pos _

/-- Below 2³¹ a quorum and a validity set overlap: their thresholds add up
to more than the committee has. -/
lemma totalStake_lt_thresholds (h : com.totalStake < 2 ^ 31) :
    com.totalStake < com.quorumThreshold + com.validityThreshold := by
  rw [quorumThreshold_eq h, validityThreshold_eq (by omega)]
  omega

-- ==== stakes

lemma weigh_keys (com : Committee) :
    weigh com.stake com.authorities.keys = com.totalStake :=
  com.authorities.sum_get_keys Authority.stake

lemma mem_keys_or_stake_zero (com : Committee) (k : PublicKey) :
    k ∈ com.authorities.keys ∨ com.stake k = 0 := by
  by_cases hk : k ∈ com.authorities.keys
  · exact Or.inl hk
  right
  unfold stake
  rw [BTreeMap.get_eq_none hk]
  rfl

variable {ks : List PublicKey}

lemma entries_ne_nil_of_weigh (h : 0 < weigh com.stake ks) :
    com.authorities.entries ≠ [] := by
  intro hnil
  have hzero : com.stake = fun _ => 0 := by
    funext k
    rcases mem_keys_or_stake_zero com k with hk | hk
    · unfold BTreeMap.keys at hk
      rw [hnil] at hk
      cases hk
    exact hk
  simp [hzero, weigh] at h

lemma weigh_le_totalStake (com : Committee)
    (h : ks.Nodup) : weigh com.stake ks ≤ com.totalStake := by
  rw [← weigh_keys com]
  exact weigh_le_of_subset h com.authorities.keys_nodup fun k _ => mem_keys_or_stake_zero com k

/-- Below 2³¹, a quorum of authors and a validity set of authors share
one. -/
lemma exists_common_of_thresholds (h : com.totalStake < 2 ^ 31)
    {as bs : List PublicKey} (has : as.Nodup) (hbs : bs.Nodup)
    (hq : com.quorumThreshold ≤ weigh com.stake as)
    (hv : com.validityThreshold ≤ weigh com.stake bs) : ∃ k ∈ as, k ∈ bs := by
  have := totalStake_lt_thresholds h
  exact exists_common (fun ks hks => weigh_le_totalStake com hks) has hbs (by omega)

end Committee

end HetuEngine.Narwhal
