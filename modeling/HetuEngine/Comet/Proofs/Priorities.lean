/-
Proposer priorities as numbers (types/validator_set.go of hetu-cometbft).

`Lib.RoundRobin` speaks of priorities as a function on the positions of the
list. This module says what the functions of a validator set do to it, as
long as the numbers fit in int64: an increment is a turn, a shift centres, a
rescaling brings the priorities within twice the total power.
-/
import HetuEngine.Lib.Assoc
import HetuEngine.Lib.RoundRobin
import HetuEngine.Comet.ValidatorSet

namespace HetuEngine.Comet.ValidatorSet

open Lib.RoundRobin Validator

variable {vals : ValidatorSet}

-- ==== Positions

def prio (vals : ValidatorSet) (i : Nat) : Int :=
  (vals.validators[i]?).elim 0 Validator.proposerPriority

def weight (vals : ValidatorSet) (i : Nat) : Int :=
  (vals.validators[i]?).elim 0 Validator.votingPower

variable {i : Nat} {d : Int}

variable {v : Validator}

lemma prio_of_getElem? (h : vals.validators[i]? = some v) :
    vals.prio i = v.proposerPriority := by
  rw [prio, h]
  rfl

lemma exists_getElem? (hi : i < vals.size) :
    ∃ v, vals.validators[i]? = some v :=
  ⟨_, List.getElem?_eq_getElem hi⟩

lemma sum_map_eq_total {α : Type} (f : α → Int) (xs : List α) :
    (xs.map f).sum = total xs.length fun i => (xs[i]?).elim 0 f := by
  induction xs with
  | nil => rfl
  | cons x xs ih =>
    rw [List.map_cons, List.sum_cons, ih, List.length_cons, total, total,
      Finset.sum_range_succ', add_comm]
    rfl

lemma totalVotingPower_eq (vals : ValidatorSet) :
    vals.totalVotingPower = total vals.size vals.weight :=
  sum_map_eq_total _ _

lemma weight_pos (hi : i < vals.size) : 0 < vals.weight i := by
  obtain ⟨v, hv⟩ := vals.exists_getElem? hi
  rw [weight, hv]
  exact vals.power_pos v (List.mem_of_getElem? hv)

lemma weight_le (hi : i < vals.size) :
    vals.weight i ≤ vals.totalVotingPower := by
  rw [totalVotingPower_eq]
  exact weight_le_total (fun j hj => vals.weight_pos hj) hi

lemma totalVotingPower_le (vals : ValidatorSet) :
    vals.totalVotingPower ≤ maxTotalVotingPower := vals.total_le

lemma size_pos_iff : 0 < vals.size ↔ vals.validators ≠ [] :=
  List.length_pos_iff

-- ==== New priorities

@[simp] lemma size_withPriorities (f : Validator → Int) :
    (vals.withPriorities f).size = vals.size := List.length_map _

@[simp] lemma weight_withPriorities (f : Validator → Int) :
    (vals.withPriorities f).weight = vals.weight := by
  funext i
  rw [weight, weight, withPriorities, List.getElem?_map]
  cases vals.validators[i]? with
  | none => rfl
  | some v => rfl

lemma prio_withPriorities (f : Validator → Int)
    (h : vals.validators[i]? = some v) :
    (vals.withPriorities f).prio i = f v := by
  rw [prio, withPriorities, List.getElem?_map, h]
  rfl

lemma withPriorities_self {f : Validator → Int}
    (h : ∀ v ∈ vals.validators, f v = v.proposerPriority) :
    vals.withPriorities f = vals := by
  obtain ⟨⟨validators, proposer, hnonneg, hle⟩, hpos, hnodup⟩ := vals
  simp only [withPriorities, mk.injEq, ReceivedSet.mk.injEq, and_true]
  conv_rhs => rw [← List.map_id validators]
  refine List.map_congr_left fun v hv => ?_
  rw [h v hv]
  rfl

-- ==== The front

/-- `getValWithMostPriority` finds a validator that nobody exceeds. -/
lemma getValWithMostPriority_spec (h : vals.validators ≠ []) :
    ∃ m ∈ vals.validators, vals.getValWithMostPriority = some m
    ∧ ∀ v ∈ vals.validators, v.proposerPriority ≤ m.proposerPriority := by
  have hcompare : ∀ v w : Validator,
      (v.compareProposerPriority w = v ∨ v.compareProposerPriority w = w)
      ∧ v.proposerPriority ≤ (v.compareProposerPriority w).proposerPriority
      ∧ w.proposerPriority ≤ (v.compareProposerPriority w).proposerPriority := by
    intro v w
    unfold compareProposerPriority
    split
    · exact ⟨.inl rfl, le_rfl, by omega⟩
    split
    · exact ⟨.inr rfl, by omega, le_rfl⟩
    split
    · exact ⟨.inl rfl, le_rfl, by omega⟩
    exact ⟨.inr rfl, by omega, le_rfl⟩
  unfold getValWithMostPriority
  cases hvals : vals.validators with
  | nil => exact absurd hvals h
  | cons v vs =>
    obtain ⟨hmem, hall⟩ := Lib.foldl_best (r := fun v w => v.proposerPriority ≤ w.proposerPriority)
      (fun _ => le_rfl) (fun h h' => h.trans h') hcompare vs v
    exact ⟨_, hmem, List.foldl_hom some fun _ _ => rfl, hall⟩

-- ==== An increment is a turn

/-- Priorities that an increment does not clip. -/
def Safe (vals : ValidatorSet) : Prop :=
  ∀ i < vals.size, -(7 * maxTotalVotingPower) ≤ vals.prio i ∧ vals.prio i ≤ 7 * maxTotalVotingPower

lemma safeSubClip_eq {a b : Int} (hle : a - b ≤ maxInt64)
    (hge : minInt64 ≤ a - b) : safeSubClip a b = a - b := by
  rw [safeSubClip, if_neg (not_lt.mpr hge), if_neg (not_lt.mpr hle)]

lemma maxTotalVotingPower_pos : 0 < maxTotalVotingPower := by decide

lemma maxInt64_eq : maxInt64 = 8 * maxTotalVotingPower + 7 := by decide

lemma minInt64_eq : minInt64 = -(8 * maxTotalVotingPower + 8) := by decide

@[simp] lemma size_incrementOnce (vals : ValidatorSet) :
    vals.incrementOnce.1.size = vals.size := by
  unfold incrementOnce
  simp only
  split
  · rw [size_withPriorities]
  rw [size_withPriorities, size_withPriorities]

@[simp] lemma weight_incrementOnce (vals : ValidatorSet) :
    vals.incrementOnce.1.weight = vals.weight := by
  unfold incrementOnce
  simp only
  split
  · rw [weight_withPriorities]
  rw [weight_withPriorities, weight_withPriorities]

@[simp] lemma totalVotingPower_incrementOnce (vals : ValidatorSet) :
    vals.incrementOnce.1.totalVotingPower = vals.totalVotingPower := by
  rw [totalVotingPower_eq, totalVotingPower_eq, size_incrementOnce, weight_incrementOnce]

lemma index_of_address {j : Nat} {w : Validator}
    (hv : vals.validators[i]? = some v) (hw : vals.validators[j]? = some w)
    (h : v.address = w.address) : i = j := by
  have hvw : v = w := List.inj_on_of_nodup_map vals.addresses_nodup
    (List.mem_of_getElem? hv) (List.mem_of_getElem? hw) h
  obtain ⟨hi, hvi⟩ := List.getElem?_eq_some_iff.mp hv
  obtain ⟨hj, hwj⟩ := List.getElem?_eq_some_iff.mp hw
  exact (vals.addresses_nodup.of_map _).getElem_inj_iff.mp (hvi.trans (hvw.trans hwj.symm))

def raised (vals : ValidatorSet) : ValidatorSet :=
  vals.withPriorities fun v => safeAddClip v.proposerPriority v.votingPower

lemma prio_raised (hsafe : vals.Safe) (hi : i < vals.size) :
    vals.raised.prio i = vals.prio i + vals.weight i := by
  have hmax := maxInt64_eq
  have hmin := minInt64_eq
  have hpow := vals.totalVotingPower_le
  obtain ⟨hlo, hhi⟩ := hsafe i hi
  have hwpos := vals.weight_pos hi
  have hwle := vals.weight_le hi
  obtain ⟨v, hv⟩ := vals.exists_getElem? hi
  rw [raised, prio_withPriorities _ hv]
  rw [prio_of_getElem? hv] at hlo hhi ⊢
  rw [weight, hv] at hwpos hwle ⊢
  simp only [Option.elim_some] at hwpos hwle ⊢
  rw [safeAddClip, if_neg (by omega), if_neg (by omega)]

lemma incrementOnce_eq {m : Validator} (h : vals.raised.getValWithMostPriority = some m) :
    let priority := safeSubClip m.proposerPriority vals.totalVotingPower
    vals.incrementOnce = (vals.raised.withPriorities fun v =>
          if v.address = m.address then priority else v.proposerPriority,
        some { m with proposerPriority := priority }) := by
  unfold raised at h
  unfold incrementOnce
  simp only [h]
  rfl

lemma incrementOnce_turnOf (h : vals.validators ≠ []) (hsafe : vals.Safe) :
    ∃ k, TurnOf vals.size vals.weight vals.prio vals.incrementOnce.1.prio k
    ∧ vals.incrementOnce.2 = vals.incrementOnce.1.validators[k]? := by
  have hmax := maxInt64_eq
  have hmin := minInt64_eq
  have hsize : vals.raised.size = vals.size := size_withPriorities _
  have hne : vals.raised.validators ≠ [] := by
    rw [← size_pos_iff, hsize, size_pos_iff]
    exact h
  obtain ⟨m, hm, hmost, hfront⟩ := getValWithMostPriority_spec hne
  obtain ⟨k, hk⟩ := List.mem_iff_getElem?.mp hm
  have hklt : k < vals.size := by
    rw [← hsize]
    exact (List.getElem?_eq_some_iff.mp hk).1
  have hmk : m.proposerPriority = vals.prio k + vals.weight k := by
    rw [← prio_of_getElem? hk, prio_raised hsafe hklt]
  -- The one in front pays without clipping.
  have hpay : safeSubClip m.proposerPriority vals.totalVotingPower
      = vals.prio k + vals.weight k - vals.totalVotingPower := by
    obtain ⟨hlo, hhi⟩ := hsafe k hklt
    have hpow := vals.totalVotingPower_le
    have hwpos := vals.weight_pos hklt
    have hwle := vals.weight_le hklt
    rw [hmk]
    exact safeSubClip_eq (by omega) (by omega)
  rw [incrementOnce_eq hmost]
  refine ⟨k, ⟨hklt, fun i hi => ?_, fun i hi => ?_⟩, ?_⟩
  · rw [← hsize] at hi
    obtain ⟨v, hv⟩ := vals.raised.exists_getElem? hi
    have hle := hfront v (List.mem_of_getElem? hv)
    rw [hsize] at hi
    rwa [hmk, ← prio_of_getElem? hv, prio_raised hsafe hi] at hle
  · rw [← hsize] at hi
    obtain ⟨v, hv⟩ := vals.raised.exists_getElem? hi
    rw [hsize] at hi
    rw [prio_withPriorities _ hv, ← totalVotingPower_eq]
    by_cases hik : i = k
    · subst hik
      cases hv.symm.trans hk
      rw [if_pos rfl, if_pos rfl, hpay]
    have haddr : v.address ≠ m.address := fun heq => hik (index_of_address hv hk heq)
    rw [if_neg haddr, if_neg hik, ← prio_of_getElem? hv, prio_raised hsafe hi, sub_zero]
  show some _ = (vals.raised.validators.map _)[k]?
  rw [List.getElem?_map, hk]
  simp

lemma incrementOnce_turn (h : vals.validators ≠ []) (hsafe : vals.Safe) :
    Turn vals.size vals.weight vals.prio vals.incrementOnce.1.prio := by
  obtain ⟨k, hk, -⟩ := incrementOnce_turnOf h hsafe
  exact ⟨k, hk⟩

-- ==== The distance between the priorities

def Words (vals : ValidatorSet) : Prop :=
  ∀ i < vals.size, minInt64 ≤ vals.prio i ∧ vals.prio i ≤ maxInt64

lemma forall_prio {P : Int → Prop} :
    (∀ v ∈ vals.validators, P v.proposerPriority)
      ↔ ∀ i < vals.size, P (vals.prio i) := by
  constructor
  · intro h i hi
    obtain ⟨v, hv⟩ := vals.exists_getElem? hi
    rw [prio_of_getElem? hv]
    exact h v (List.mem_of_getElem? hv)
  intro h v hv
  obtain ⟨i, hi⟩ := List.mem_iff_getElem?.mp hv
  rw [← prio_of_getElem? hi]
  exact h i (List.getElem?_eq_some_iff.mp hi).1

/-- `computeMaxMinPriorityDiff` is the distance between the highest and the
lowest priority. -/
lemma computeMaxMinPriorityDiff_eq (hne : vals.validators ≠ [])
    (hwords : vals.Words) (hle : Within vals.size vals.prio maxInt64) :
    ∃ i < vals.size, ∃ j < vals.size, vals.computeMaxMinPriorityDiff
      = vals.prio i - vals.prio j
      ∧ ∀ k < vals.size, vals.prio j ≤ vals.prio k
        ∧ vals.prio k ≤ vals.prio i := by
  have hmem := (forall_prio (P := fun p => minInt64 ≤ p ∧ p ≤ maxInt64)).mpr hwords
  obtain ⟨w, hw⟩ := List.exists_mem_of_ne_nil _ hne
  obtain ⟨hmax, hmaxall⟩ := Lib.foldl_best (f := fun a b : Int => if a < b then b else a)
    le_refl le_trans (fun a b => by split <;> omega)
    (vals.validators.map proposerPriority) minInt64
  obtain ⟨hmin, hminall⟩ := Lib.foldl_best (r := fun a b => b ≤ a)
    (f := fun a b : Int => if b < a then b else a) le_refl (fun h h' => h'.trans h)
    (fun a b => by split <;> omega)
    (vals.validators.map proposerPriority) maxInt64
  simp only [List.foldl_map, List.mem_cons, List.mem_map] at hmax hmin
  rw [List.foldl_map, List.forall_mem_cons, List.forall_mem_map] at hmaxall hminall
  -- The start values are met by everyone, so both ends are attained.
  obtain ⟨v, hv, hveq⟩ := hmax.elim (fun h => ⟨w, hw, le_antisymm (hmaxall.2 w hw)
      (h.trans_le (hmem w hw).1)⟩) id
  obtain ⟨u, hu, hueq⟩ := hmin.elim
    (fun h => ⟨w, hw, le_antisymm ((hmem w hw).2.trans_eq h.symm) (hminall.2 w hw)⟩) id
  rw [← hveq] at hmaxall
  rw [← hueq] at hminall
  obtain ⟨i, hi⟩ := List.mem_iff_getElem?.mp hv
  obtain ⟨j, hj⟩ := List.mem_iff_getElem?.mp hu
  have hilt : i < vals.size := (List.getElem?_eq_some_iff.mp hi).1
  have hjlt : j < vals.size := (List.getElem?_eq_some_iff.mp hj).1
  have hnonneg : 0 ≤ vals.prio i - vals.prio j := by
    rw [prio_of_getElem? hi, prio_of_getElem? hj]
    exact sub_nonneg.mpr (hmaxall.2 u hu)
  refine ⟨i, hilt, j, hjlt, ?_, fun k hk => ⟨?_, ?_⟩⟩
  · have hrange := wrap64_of_range (le_trans (by decide : minInt64 ≤ 0) hnonneg) (hle i hilt j hjlt)
    unfold computeMaxMinPriorityDiff
    simp only [← hveq, ← hueq]
    rw [← prio_of_getElem? hi, ← prio_of_getElem? hj, hrange, if_neg (not_lt.mpr hnonneg)]
  · rw [prio_of_getElem? hj]
    exact forall_prio.mp hminall.2 k hk
  rw [prio_of_getElem? hi]
  exact (forall_prio (P := fun p => p ≤ v.proposerPriority)).mp hmaxall.2 k hk

/-- The distance is at most `d` just when no two priorities are further
apart. -/
lemma computeMaxMinPriorityDiff_le_iff (hne : vals.validators ≠ [])
    (hwords : vals.Words) (hle : Within vals.size vals.prio maxInt64) :
    vals.computeMaxMinPriorityDiff ≤ d ↔ Within vals.size vals.prio d := by
  obtain ⟨i, hi, j, hj, heq, hall⟩ := computeMaxMinPriorityDiff_eq hne hwords hle
  rw [heq]
  constructor
  · intro h k hk l hl
    have := (hall k hk).2
    have := (hall l hl).1
    omega
  exact fun h => h i hi j hj

-- ==== Rescaling and centring

/-- Dividing by a ratio brings together what is at most `ratio * d` apart. -/
lemma tdiv_sub_tdiv_le {x y r : Int} (hr : 0 < r) (hd : 0 ≤ d)
    (h : x - y ≤ r * d) : x.tdiv r - y.tdiv r ≤ d := by
  have hx := Int.mul_tdiv_add_tmod x r
  have hy := Int.mul_tdiv_add_tmod y r
  by_contra hlt
  have hmul : r * (d + 1) ≤ r * (x.tdiv r - y.tdiv r) :=
    mul_le_mul_of_nonneg_left (by omega) hr.le
  rw [mul_sub, mul_add] at hmul
  have hylt := Int.tmod_lt_of_pos y hr
  by_cases hxneg : x < 0
  · by_cases hypos : 0 ≤ y
    · -- The quotients are in order.
      have hxq := Int.tdiv_nonneg (a := -x) (by omega) hr.le
      rw [Int.neg_tdiv] at hxq
      have hyq : 0 ≤ y.tdiv r := Int.tdiv_nonneg hypos hr.le
      omega
    have hyr : y.tmod r ≤ 0 := by
      have := Int.tmod_nonneg r (a := -y) (by omega)
      rw [Int.neg_tmod] at this
      omega
    have hxr := Int.lt_tmod_of_pos x hr
    omega
  have hxr := Int.tmod_nonneg r (not_lt.mp hxneg)
  omega

@[simp] lemma size_rescalePriorities (d : Int) :
    (vals.rescalePriorities d).size = vals.size := by
  unfold rescalePriorities
  split
  · rfl
  simp only
  split
  · rw [size_withPriorities]
  rfl

@[simp] lemma weight_rescalePriorities (d : Int) :
    (vals.rescalePriorities d).weight = vals.weight := by
  unfold rescalePriorities
  split
  · rfl
  simp only
  split
  · rw [weight_withPriorities]
  rfl

/-- Priorities that a rescaling to distance `d` can compute with. -/
structure Fits (vals : ValidatorSet) (d : Int) : Prop where
  words : vals.Words
  within : Within vals.size vals.prio (maxInt64 - d + 1)

section

variable (hne : vals.validators ≠ [])

include hne

lemma rescalePriorities_idle (hd : 0 < d) (hfits : vals.Fits d)
    (h : Within vals.size vals.prio d) : vals.rescalePriorities d = vals := by
  have hle : Within vals.size vals.prio maxInt64 := fun i hi j hj => by
    have := hfits.within i hi j hj
    omega
  have := (computeMaxMinPriorityDiff_le_iff hne hfits.words hle).mpr h
  unfold rescalePriorities
  rw [if_neg (not_le.mpr hd)]
  simp only
  rw [if_neg (not_lt.mpr this)]

lemma rescalePriorities_divides (hd : 0 < d) (hfits : vals.Fits d)
    (h : ¬ Within vals.size vals.prio d) :
    ∃ i < vals.size, ∃ j < vals.size, d < vals.prio i - vals.prio j
    ∧ (∀ k < vals.size, vals.prio j ≤ vals.prio k ∧ vals.prio k ≤ vals.prio i)
    ∧ ∀ k < vals.size, (vals.rescalePriorities d).prio k
      = (vals.prio k).tdiv ((vals.prio i - vals.prio j + d - 1) / d) := by
  have hle : Within vals.size vals.prio maxInt64 := fun i hi j hj => by
    have := hfits.within i hi j hj
    omega
  obtain ⟨i, hi, j, hj, heq, hall⟩ := computeMaxMinPriorityDiff_eq hne hfits.words hle
  have hlt : d < vals.computeMaxMinPriorityDiff := by
    rw [← not_le, computeMaxMinPriorityDiff_le_iff hne hfits.words hle]
    exact h
  rw [heq] at hlt
  refine ⟨i, hi, j, hj, hlt, hall, fun k hk => ?_⟩
  obtain ⟨v, hv⟩ := vals.exists_getElem? hk
  have hmin : minInt64 ≤ 0 := by decide
  have hfit := hfits.within i hi j hj
  have hwrap : wrap64 (vals.prio i - vals.prio j + d - 1) = vals.prio i - vals.prio j + d - 1 :=
    wrap64_of_range (by omega) (by omega)
  have hdiv : (vals.prio i - vals.prio j + d - 1).tdiv d
      = (vals.prio i - vals.prio j + d - 1) / d :=
    Int.tdiv_eq_ediv_of_nonneg (by omega)
  unfold rescalePriorities
  rw [if_neg (not_le.mpr hd)]
  simp only [heq]
  rw [if_pos hlt, prio_withPriorities _ hv, hwrap, hdiv, prio_of_getElem? hv]

lemma rescalePriorities_within (hd : 0 < d) (hfits : vals.Fits d) :
    Within vals.size (vals.rescalePriorities d).prio d := by
  by_cases h : Within vals.size vals.prio d
  · rw [rescalePriorities_idle hne hd hfits h]
    exact h
  obtain ⟨i, hi, j, hj, hlt, hall, hprio⟩ := rescalePriorities_divides hne hd hfits h
  have hratio : vals.prio i - vals.prio j ≤ (vals.prio i - vals.prio j + d - 1) / d * d := by
    have := Int.emod_lt_of_pos (vals.prio i - vals.prio j + d - 1) hd
    have := Int.ediv_mul_add_emod (vals.prio i - vals.prio j + d - 1) d
    omega
  intro k hk l hl
  rw [hprio k hk, hprio l hl]
  refine tdiv_sub_tdiv_le ?_ hd.le ?_
  · exact Int.le_ediv_of_mul_le hd (by omega)
  have := (hall k hk).2
  have := (hall l hl).1
  omega

end

lemma computeAvgProposerPriority_eq (vals : ValidatorSet) :
    vals.computeAvgProposerPriority
      = total vals.size vals.prio / vals.size := by
  rw [computeAvgProposerPriority, sum_map_eq_total]
  rfl

section

variable (hd : d ≤ maxInt64) (h : Within vals.size vals.prio d)

include hd h

lemma prio_shiftByAvgProposerPriority (hi : i < vals.size) :
    vals.shiftByAvgProposerPriority.prio i
      = vals.prio i - total vals.size vals.prio / vals.size := by
  obtain ⟨v, hv⟩ := vals.exists_getElem? hi
  obtain ⟨hlo, hhi⟩ := h.average hi
  have hmin : minInt64 ≤ -maxInt64 := by decide
  rw [shiftByAvgProposerPriority, prio_withPriorities _ hv,
    computeAvgProposerPriority_eq, ← prio_of_getElem? hv]
  exact safeSubClip_eq (by omega) (by omega)

lemma shiftByAvgProposerPriority_centred (hne : vals.validators ≠ []) :
    Centred vals.size vals.shiftByAvgProposerPriority.prio :=
  centred_sub_average (size_pos_iff.mpr hne) fun _ hi => prio_shiftByAvgProposerPriority hd h hi

lemma shiftByAvgProposerPriority_within :
    Within vals.size vals.shiftByAvgProposerPriority.prio d := by
  intro i hi j hj
  rw [prio_shiftByAvgProposerPriority hd h hi, prio_shiftByAvgProposerPriority hd h hj]
  have := h i hi j hj
  omega

end

lemma shiftByAvgProposerPriority_idle (hwords : vals.Words)
    (h : Centred vals.size vals.prio) :
    vals.shiftByAvgProposerPriority = vals := by
  refine withPriorities_self fun v hv => ?_
  obtain ⟨i, hi⟩ := List.mem_iff_getElem?.mp hv
  obtain ⟨hlo, hhi⟩ := hwords i (List.getElem?_eq_some_iff.mp hi).1
  rw [prio_of_getElem? hi] at hlo hhi
  rw [computeAvgProposerPriority_eq, h.average]
  rw [safeSubClip_eq (by omega) (by omega), sub_zero]

end HetuEngine.Comet.ValidatorSet
