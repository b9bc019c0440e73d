/-
What the hash of the proposer priorities tells about them.

Varints are read back to the numbers they were written for (`putVarint_inj`),
so one after the other they would determine the priorities. But
`ProposerPriorityHash` writes each of them to the front of its buffer, over
the one before: what it hashes are the bytes of the last priority, what longer
ones have left behind it, and zeros. Of two validators or more, the first can
have any short priority.
-/
import HetuEngine.Comet.Header
import HetuEngine.Comet.Proofs.Votes

namespace HetuEngine.Comet

-- ==== varints

lemma putUvarint_eq_varint (fuel n : Nat) :
    putUvarint fuel n = varint fuel n := by
  induction fuel generalizing n with
  | zero => rfl
  | succ fuel ih => rw [putUvarint, varint, ih]

lemma length_putUvarint_le (fuel n : Nat) :
    (putUvarint fuel n).length ≤ fuel + 1 := by
  induction fuel generalizing n with
  | zero => exact le_rfl
  | succ fuel ih =>
    unfold putUvarint
    split
    · simp
    rw [List.length_cons]
    exact Nat.succ_le_succ (ih _)

def IsInt64 (x : Int) : Prop := minInt64 ≤ x ∧ x ≤ maxInt64

lemma putVarint_inj {a b : Int} (ha : IsInt64 a) (hb : IsInt64 b)
    (h : putVarint a = putVarint b) : a = b := by
  unfold IsInt64 minInt64 maxInt64 at ha hb
  have hfits : 2 ^ 64 ≤ 128 ^ (10 - 1 + 1) := by decide
  unfold putVarint maxVarintLen64 at h
  rw [putUvarint_eq_varint, putUvarint_eq_varint] at h
  have hread := congrArg (fun bytes => uvarint (bytes ++ [])) h
  rw [uvarint_varint (lt_of_lt_of_le (by split <;> omega) hfits),
    uvarint_varint (lt_of_lt_of_le (by split <;> omega) hfits)] at hread
  -- the sign is the last bit
  simp only [Option.some.injEq, Prod.mk.injEq, and_true] at hread
  split at hread <;> split at hread <;> omega

-- ==== the hashed bytes

/-- What `ProposerPriorityHash` hashes. -/
def ReceivedSet.hashedPriorities (vals : ReceivedSet) : Bytes :=
  let (buf, total) := putPriorities vals.validators
    (List.replicate (maxVarintLen64 * vals.validators.length) 0, 0)
  buf.take total

/-- The priority of a single validator is hashed as it is written. -/
lemma hashedPriorities_single {vals : ReceivedSet} {val : Validator}
    (h : vals.validators = [val]) :
    vals.hashedPriorities = putVarint val.proposerPriority := by
  unfold ReceivedSet.hashedPriorities
  rw [h]
  simp [putPriorities]

def priorityOnly (priority : Int) : Validator := ⟨[], [], 0, priority⟩

/-- One validator with the priority, and `m` with priority zero. -/
def priorityFirst (priority : Int) (m : Nat) : ReceivedSet where
  validators := priorityOnly priority :: List.replicate m (priorityOnly 0)
  proposer := none
  power_nonneg := by
    intro v hv
    rcases List.mem_cons.mp hv with rfl | hv
    · exact le_rfl
    rw [List.eq_of_mem_replicate hv]
    exact le_rfl
  total_le := by simp [priorityOnly, maxTotalVotingPower, maxInt64]

/-- A first priority of one byte is written over. -/
lemma hashedPriorities_priorityFirst {p q : Int} {byte byte' : UInt8}
    (hp : putVarint p = [byte]) (hq : putVarint q = [byte']) (m : Nat) :
    (priorityFirst p (m + 1)).hashedPriorities
      = (priorityFirst q (m + 1)).hashedPriorities := by
  have hzero : putVarint 0 = [0] := rfl
  simp [ReceivedSet.hashedPriorities, priorityFirst, priorityOnly,
    List.replicate_succ, putPriorities, hp, hq, hzero]

/-- The hashed bytes determine the priorities of validator sets of one size
only if that size is at most one. -/
theorem hashedPriorities_inj_iff (n : Nat) :
    (∀ vals others : ReceivedSet, vals.validators.length = n →
      others.validators.length = n →
      (∀ val ∈ vals.validators, IsInt64 val.proposerPriority) →
      (∀ val ∈ others.validators, IsInt64 val.proposerPriority) →
      vals.hashedPriorities = others.hashedPriorities →
      vals.validators.map Validator.proposerPriority
        = others.validators.map Validator.proposerPriority)
      ↔ n ≤ 1 := by
  constructor
  · intro h
    by_contra hn
    obtain ⟨m, rfl⟩ : ∃ m, n = m + 2 := ⟨n - 2, by omega⟩
    have hrange {p : Int} (hp : IsInt64 p) : ∀ val ∈ (priorityFirst p (m + 1)).validators,
          IsInt64 val.proposerPriority := by
      intro val hval
      rcases List.mem_cons.mp hval with rfl | hval
      · exact hp
      rw [List.eq_of_mem_replicate hval]
      exact ⟨by decide, by decide⟩
    have heq := h (priorityFirst 1 (m + 1)) (priorityFirst 2 (m + 1))
      (by simp [priorityFirst]) (by simp [priorityFirst])
      (hrange ⟨by decide, by decide⟩) (hrange ⟨by decide, by decide⟩)
      (hashedPriorities_priorityFirst rfl rfl m)
    simp [priorityFirst, priorityOnly] at heq
  intro hn vals others hlen hlen' hvals hothers h
  rcases Nat.le_one_iff_eq_zero_or_eq_one.mp hn with rfl | rfl
  · rw [List.length_eq_zero_iff.mp hlen, List.length_eq_zero_iff.mp hlen']
  obtain ⟨val, hval⟩ := List.length_eq_one_iff.mp hlen
  obtain ⟨other, hother⟩ := List.length_eq_one_iff.mp hlen'
  rw [hashedPriorities_single hval, hashedPriorities_single hother] at h
  rw [hval, List.forall_mem_singleton] at hvals
  rw [hother, List.forall_mem_singleton] at hothers
  simp [hval, hother, putVarint_inj hvals hothers h]

def twoValidators (priority : Int) : ValidatorSet where
  validators := [⟨[1], [1], 1, priority⟩, ⟨[2], [2], 1, 0⟩]
  proposer := none
  power_pos := by simp
  addresses_nodup := by simp
  total_le := by simp [maxTotalVotingPower, maxInt64]

/-- The light client takes priorities 2, 0 for 1, 0: `PutVarint` has written
the zero over the first byte. -/
theorem proposerPriorityHash_overwritten :
    (twoValidators 1).hashedPriorities = (twoValidators 2).hashedPriorities
    ∧ (twoValidators 1).validators.map Validator.proposerPriority = [1, 0]
    ∧ (twoValidators 2).validators.map Validator.proposerPriority = [2, 0]
    ∧ ∀ sum, (twoValidators 1).proposerPriorityHash sum
      = (twoValidators 2).proposerPriorityHash sum :=
  ⟨rfl, rfl, rfl, fun _ => rfl⟩

end HetuEngine.Comet
