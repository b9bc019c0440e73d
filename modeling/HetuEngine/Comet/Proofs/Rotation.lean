/-
The rotation of proposers (types/validator_set.go of hetu-cometbft).

`IncrementProposerPriority(times)` rescales and centres the priorities once
and then increments them `times` times. A node that skips rounds makes one
call, one that goes through them several, and `LoadValidators` replays in one
call what `updateState` did in one call for each height. They agree when the
rescaling and the centring of all calls but the first have nothing to do.

# When they have nothing to do

The increments keep the sum of the priorities, but not the distance between
them within the window of twice the total power: a validator of little power
that starts far ahead stays ahead while the last in the list falls back. The
first time the distance is beyond the window it is below three times the
power, so a call there divides by two, and the rotation never returns to what
it would have been: priorities agree modulo the total after the same number
of increments only if they did before (`Turn.meet`), and what the division
takes from the greatest distance is strictly between the total and twice the
total.

# Step after step

With one call for each step the priorities stay below three times the total
(`stepwise_bounded`), and while the window is kept everyone proposes in
proportion to their power (`turns_proportional`).
-/
import HetuEngine.Comet.ValidatorUpdates
import HetuEngine.Comet.Proofs.Priorities

namespace HetuEngine.Comet.ValidatorSet

open Lib.RoundRobin Option ReceivedSet Int

variable {vals : ValidatorSet} {k : Nat}

-- ==== A call as a number of increments

def after (vals : ValidatorSet) (k : Nat) : ValidatorSet := (fun s => s.incrementOnce.1)^[k] vals

/-- The set after so many increments and one more. -/
def turned (vals : ValidatorSet) (k : Nat) : ValidatorSet :=
  { (vals.after k).incrementOnce.1 with proposer := (vals.after k).incrementOnce.2 }

def window (vals : ValidatorSet) : Int := priorityWindowSizeFactor * vals.totalVotingPower

/-- The set that a call starts its increments from. -/
def settled (vals : ValidatorSet) : ValidatorSet :=
  (vals.rescalePriorities vals.window).shiftByAvgProposerPriority

lemma window_eq (vals : ValidatorSet) :
    vals.window = 2 * vals.totalVotingPower := rfl

lemma after_succ (vals : ValidatorSet) (k : Nat) :
    vals.after (k + 1) = (vals.after k).incrementOnce.1 :=
  Function.iterate_succ_apply' _ _ _

lemma after_add (vals : ValidatorSet) (j k : Nat) :
    vals.after (j + k) = (vals.after j).after k := by
  unfold after
  rw [Nat.add_comm, Function.iterate_add_apply]

lemma incrementTimes_succ (k : Nat) (vals : ValidatorSet)
    (proposer : Option Validator) :
    vals.incrementTimes proposer (k + 1) = vals.turned k := by
  induction k generalizing vals proposer with
  | zero => rfl
  | succ k ih =>
    rw [incrementTimes]
    show vals.incrementOnce.1.incrementTimes _ (k + 1) = _
    rw [ih]
    rfl

lemma incrementProposerPriority_eq (hne : vals.validators ≠ []) :
    vals.incrementProposerPriority (k + 1 : Nat)
      = some (vals.settled.turned k) := by
  unfold incrementProposerPriority
  rw [if_neg (by rintro (h | h); exact hne h; omega)]
  simp only [toNat_natCast]
  rw [incrementTimes_succ]
  rfl

variable {vals' : ValidatorSet}

section

variable (h : vals.validators = vals'.validators)

include h

lemma incrementOnce_congr :
    vals.incrementOnce.1.validators = vals'.incrementOnce.1.validators
      ∧ vals.incrementOnce.2 = vals'.incrementOnce.2 := by
  obtain ⟨⟨validators, proposer, hnonneg, hle⟩, hpos, hnodup⟩ := vals
  obtain ⟨⟨validators', proposer', hnonneg', hle'⟩, hpos', hnodup'⟩ := vals'
  cases h
  let raise := fun v : Validator => safeAddClip v.proposerPriority v.votingPower
  cases hmost : (withPriorities ⟨⟨validators, proposer, hnonneg, hle⟩, hpos,
      hnodup⟩ raise).getValWithMostPriority with
  | none =>
    have hmost' : (withPriorities ⟨⟨validators, proposer', hnonneg', hle'⟩,
        hpos', hnodup'⟩ raise).getValWithMostPriority = none := hmost
    unfold incrementOnce
    simp only [raise] at hmost hmost'
    simp only [hmost, hmost']
    exact ⟨rfl, trivial⟩
  | some m =>
    have hmost' : (withPriorities ⟨⟨validators, proposer', hnonneg', hle'⟩,
        hpos', hnodup'⟩ raise).getValWithMostPriority = some m := hmost
    unfold incrementOnce
    simp only [raise] at hmost hmost'
    simp only [hmost, hmost']
    exact ⟨rfl, rfl⟩

lemma eq_of_lists (hproposer : vals.proposer = vals'.proposer) :
    vals = vals' := by
  obtain ⟨⟨validators, proposer, _, _⟩, _, _⟩ := vals
  obtain ⟨⟨validators', proposer', _, _⟩, _, _⟩ := vals'
  cases h
  cases hproposer
  rfl

lemma after_congr (k : Nat) :
    (vals.after k).validators = (vals'.after k).validators := by
  induction k with
  | zero => exact h
  | succ k ih =>
    rw [after_succ, after_succ]
    exact (incrementOnce_congr ih).1

lemma turned_congr (k : Nat) : vals.turned k = vals'.turned k := by
  obtain ⟨hlist, hproposer⟩ := incrementOnce_congr (after_congr h k)
  exact eq_of_lists hlist hproposer

end

lemma turned_validators (vals : ValidatorSet) (k : Nat) :
    (vals.turned k).validators = (vals.after (k + 1)).validators := by
  rw [after_succ]
  rfl

lemma turned_ne (h : vals.validators ≠ []) (k : Nat) :
    (vals.turned k).validators ≠ [] := by
  have hsize : ∀ k, (vals.after k).size = vals.size := by
    intro k
    induction k with
    | zero => rfl
    | succ k ih => rw [after_succ, size_incrementOnce, ih]
  rw [turned_validators, ← size_pos_iff, hsize, size_pos_iff]
  exact h

lemma turned_turned (vals : ValidatorSet) (j k : Nat) :
    (vals.turned j).turned k = vals.turned (j + 1 + k) := by
  rw [turned_congr (vals.turned_validators j) k]
  simp only [turned, vals.after_add (j + 1) k]

-- ==== The window

/-- Centred priorities at most `d` apart. -/
structure Steady (vals : ValidatorSet) (d : Int) : Prop where
  ne : vals.validators ≠ []
  centred : Centred vals.size vals.prio
  within : Within vals.size vals.prio d

namespace Steady

variable {d : Int}

section

variable (h : vals.Steady d)

include h

lemma safe (hd : d ≤ 7 * maxTotalVotingPower) :
    vals.Safe := by
  intro i hi
  have := h.centred.bounds h.within hi
  omega

lemma words (hd : d ≤ 7 * maxTotalVotingPower) :
    vals.Words := by
  have hmax := maxInt64_eq
  have hmin := minInt64_eq
  intro i hi
  have := h.centred.bounds h.within hi
  omega

lemma fits (hd : d ≤ 5 * maxTotalVotingPower) : vals.Fits vals.window := by
  have hpos := maxTotalVotingPower_pos
  have hmax := maxInt64_eq
  refine ⟨h.words (by omega), fun i hi j hj => ?_⟩
  have hpow := vals.totalVotingPower_le
  have := h.within i hi j hj
  rw [window_eq]
  omega

lemma of_validators (heq : vals.validators = vals'.validators) :
    vals'.Steady d := by
  obtain ⟨hne, hcentred, hwithin⟩ := h
  unfold size prio at hcentred hwithin
  rw [heq] at hne hcentred hwithin
  exact ⟨hne, hcentred, hwithin⟩

lemma turn (hd : vals.totalVotingPower ≤ d)
    (hle : d ≤ 7 * maxTotalVotingPower) :
    vals.incrementOnce.1.Steady (d + vals.totalVotingPower - 1) := by
  have hturn := incrementOnce_turn h.ne (h.safe hle)
  rw [totalVotingPower_eq] at hd ⊢
  refine ⟨?_, ?_, ?_⟩
  · rw [← size_pos_iff, size_incrementOnce, size_pos_iff]
    exact h.ne
  · rw [size_incrementOnce]
    exact hturn.centred h.centred
  rw [size_incrementOnce]
  exact hturn.within (fun i hi => vals.weight_pos hi) hd h.within

end

end Steady

lemma totalVotingPower_pos_of_ne (hne : vals.validators ≠ []) :
    0 < vals.totalVotingPower :=
  have hsize := size_pos_iff.mpr hne
  lt_of_lt_of_le (vals.weight_pos hsize) (vals.weight_le hsize)

lemma window_pos (hne : vals.validators ≠ []) : 0 < vals.window := by
  have hpos := totalVotingPower_pos_of_ne hne
  rw [window_eq]
  omega

lemma window_le (vals : ValidatorSet) : vals.window ≤ maxInt64 := by
  have hle := vals.totalVotingPower_le
  have hpos := maxTotalVotingPower_pos
  have hmax := maxInt64_eq
  rw [window_eq]
  omega

/-- The rescaled priorities, and those of a call's start. -/
lemma rescaled_within (hne : vals.validators ≠ [])
    (hfits : vals.Fits vals.window) :
    Within (vals.rescalePriorities vals.window).size
      (vals.rescalePriorities vals.window).prio vals.window := by
  rw [size_rescalePriorities]
  exact rescalePriorities_within hne (window_pos hne) hfits

/-- A call starts its increments from centred priorities within the
window. -/
lemma settled_steady (hne : vals.validators ≠ [])
    (hfits : vals.Fits vals.window) : vals.settled.Steady vals.window := by
  have hrescaled := rescaled_within hne hfits
  have hne' : (vals.rescalePriorities vals.window).validators ≠ [] := by
    rw [← size_pos_iff, size_rescalePriorities, size_pos_iff]
    exact hne
  have hsize : vals.settled.size
      = (vals.rescalePriorities vals.window).size := size_withPriorities _
  refine ⟨?_, ?_, ?_⟩
  · rw [← size_pos_iff, hsize, size_pos_iff]
    exact hne'
  · rw [hsize]
    exact shiftByAvgProposerPriority_centred vals.window_le hrescaled hne'
  rw [hsize]
  exact shiftByAvgProposerPriority_within vals.window_le hrescaled

lemma size_settled (vals : ValidatorSet) : vals.settled.size = vals.size :=
  (size_withPriorities _).trans (size_rescalePriorities _)

lemma weight_settled (vals : ValidatorSet) :
    vals.settled.weight = vals.weight :=
  (weight_withPriorities _).trans (weight_rescalePriorities _)

lemma window_settled (vals : ValidatorSet) :
    vals.settled.window = vals.window := by
  rw [window_eq, window_eq, totalVotingPower_eq, totalVotingPower_eq, weight_settled, size_settled]

lemma settled_idle (h : vals.Steady vals.window) : vals.settled = vals := by
  have hle := vals.totalVotingPower_le
  have hwindow := vals.window_eq
  have hmax := maxTotalVotingPower_pos
  unfold settled
  rw [rescalePriorities_idle h.ne (window_pos h.ne) (h.fits (by omega)) h.within]
  exact shiftByAvgProposerPriority_idle (h.words (by omega)) h.centred

/-- What halving takes from the distance between a number that is not negative
and one that is not positive. -/
lemma halving_takes {x y p : Int} (hx : 0 ≤ x) (hy : y ≤ 0)
    (hlt : 2 * p < x - y) (hle : x - y < 3 * p) :
    ¬ p ∣ (x - y) - (x.tdiv 2 - y.tdiv 2) := by
  have hx2 : x.tdiv 2 = x / 2 := tdiv_eq_ediv_of_nonneg hx
  have hy2 : y.tdiv 2 = -(-y / 2) := by
    have := Int.neg_tdiv y 2
    have : (-y).tdiv 2 = -y / 2 := tdiv_eq_ediv_of_nonneg (by omega)
    omega
  rintro ⟨c, hc⟩
  -- The difference is strictly between `p` and `2 * p`.
  by_cases hc1 : c ≤ 1
  · have : p * c ≤ p * 1 := mul_le_mul_of_nonneg_left hc1 (by omega)
    omega
  have : p * 2 ≤ p * c := mul_le_mul_of_nonneg_left (by omega) (by omega)
  omega

/-- Beyond the window but not beyond three times the power, a call starts
from priorities that differ modulo the total. -/
lemma settled_apart (h : vals.Steady (3 * vals.totalVotingPower - 1))
    (hout : ¬ Within vals.size vals.prio vals.window) :
    ∃ i < vals.size, ¬ vals.settled.prio i ≡ vals.prio i
      [ZMOD vals.totalVotingPower] := by
  have hle := vals.totalVotingPower_le
  have hwindow := vals.window_eq
  have hmax := maxTotalVotingPower_pos
  have hfits := h.fits (by omega)
  obtain ⟨i, hi, j, hj, hlt, hall, hprio⟩ :=
    rescalePriorities_divides h.ne (window_pos h.ne) hfits hout
  have hlt3 := h.within i hi j hj
  have hratio : (vals.prio i - vals.prio j + vals.window - 1) / vals.window = 2 := by
    refine (ediv_eq_iff_of_pos (window_pos h.ne)).mpr ⟨?_, ?_⟩
    · omega
    omega
  have hsettled : ∀ k < vals.size, vals.settled.prio k = (vals.prio k).tdiv 2
        - total vals.size (vals.rescalePriorities vals.window).prio / vals.size := by
    intro k hk
    have hrescaled := rescaled_within h.ne hfits
    have hshift := prio_shiftByAvgProposerPriority vals.window_le hrescaled
      (by rwa [size_rescalePriorities])
    rwa [hprio k hk, hratio, size_rescalePriorities] at hshift
  obtain ⟨⟨a, ha, hanonneg⟩, b, hb, hbnonpos⟩ := h.centred.signs (size_pos_iff.mpr h.ne)
  have hinonneg := hanonneg.trans (hall a ha).2
  have hjnonpos := (hall b hb).1.trans hbnonpos
  by_contra! hall'
  have hsub := (hall' i hi).sub (hall' j hj)
  refine halving_takes (p := vals.totalVotingPower) hinonneg hjnonpos (by omega) (by omega) ?_
  have hdvd := hsub.dvd
  rwa [hsettled i hi, hsettled j hj, sub_sub_sub_cancel_right] at hdvd

-- ==== Path independence

/-- The distance between the priorities, as `RescalePriorities` compares it,
is within the window. -/
def InWindow (vals : ValidatorSet) : Prop := vals.computeMaxMinPriorityDiff ≤ vals.window

lemma Steady.inWindow_iff {d : Int} (h : vals.Steady d)
    (hd : d ≤ 5 * maxTotalVotingPower) :
    vals.InWindow ↔ Within vals.size vals.prio vals.window := by
  have hfits := h.fits hd
  refine computeMaxMinPriorityDiff_le_iff h.ne hfits.words fun i hi j hj => ?_
  have := window_pos h.ne
  have := hfits.within i hi j hj
  omega

lemma totalVotingPower_after (vals : ValidatorSet) (k : Nat) :
    (vals.after k).totalVotingPower = vals.totalVotingPower := by
  induction k with
  | zero => rfl
  | succ k ih => rw [after_succ, totalVotingPower_incrementOnce, ih]

lemma window_after (vals : ValidatorSet) (k : Nat) :
    (vals.after k).window = vals.window := by
  rw [window_eq, window_eq, totalVotingPower_after]

lemma after_succ_steady (h : (vals.after k).Steady vals.window) :
    (vals.after (k + 1)).Steady
      (3 * (vals.after (k + 1)).totalVotingPower - 1) := by
  have hle := vals.totalVotingPower_le
  have hpos := maxTotalVotingPower_pos
  have hpow := totalVotingPower_pos_of_ne h.ne
  have hturn := h.turn (by rw [totalVotingPower_after, window_eq] at *; omega)
    (by rw [window_eq]; omega)
  rw [← after_succ, totalVotingPower_after, window_eq] at hturn
  rw [totalVotingPower_after]
  convert hturn using 1
  omega

/-- As long as the window is kept, the priorities stay centred and within
it. -/
lemma after_steady (h : vals.Steady vals.window)
    (hin : ∀ j < k, (vals.after (j + 1)).InWindow) :
    (vals.after k).Steady vals.window := by
  induction k with
  | zero => exact h
  | succ k ih =>
    have hle := vals.totalVotingPower_le
    have hpos := maxTotalVotingPower_pos
    have hsteady := after_succ_steady (ih fun j hj => hin j (hj.trans k.lt_succ_self))
    have hwithin := (hsteady.inWindow_iff
      (by rw [totalVotingPower_after]; omega)).mp (hin k k.lt_succ_self)
    rw [window_after] at hwithin
    exact ⟨hsteady.ne, hsteady.centred, hwithin⟩

lemma inWindow_congr (h : vals.validators = vals'.validators) :
    vals.InWindow ↔ vals'.InWindow := by
  unfold InWindow computeMaxMinPriorityDiff window totalVotingPower
  rw [h]

/-- One call more, made where the window is left for the first time, does not
lead to where the rotation would have been. -/
lemma turned_settled_ne {j : Nat}
    (h : (vals.turned j).Steady (3 * (vals.turned j).totalVotingPower - 1))
    (hout : ¬ (vals.turned j).InWindow) :
    (vals.turned j).settled.turned 0 ≠ vals.turned (j + 1) := by
  have hle := (vals.turned j).totalVotingPower_le
  have hpos := maxTotalVotingPower_pos
  have hwindow := (vals.turned j).window_eq
  rw [h.inWindow_iff (by omega)] at hout
  obtain ⟨i, hi, hapart⟩ := settled_apart h hout
  have hstart := settled_steady h.ne (h.fits (by omega))
  have hturn := incrementOnce_turn hstart.ne (hstart.safe (by omega))
  rw [size_settled, weight_settled] at hturn
  intro heq
  rw [← Nat.add_zero (j + 1), ← turned_turned] at heq
  refine hapart ?_
  rw [totalVotingPower_eq]
  exact hturn.meet (incrementOnce_turn h.ne (h.safe (by omega)))
    (fun k _ => congrArg (fun s => s.prio k) heq) hi

/-- `IncrementProposerPriority(1)`, so many times. -/
def stepwise (vals : ValidatorSet) : Nat → Option ValidatorSet
  | 0 => some vals
  | k + 1 => (vals.stepwise k).bind (·.incrementProposerPriority 1)

/-- Calls with `a` and with `b` lead to where one with `a + b` does. -/
def PathIndependent (vals : ValidatorSet) : Prop :=
  ∀ a b : Int, 0 < a → 0 < b → a + b ≤ maxInt32 → (vals.incrementProposerPriority a).bind
      (·.incrementProposerPriority b) = vals.incrementProposerPriority (a + b)

/-- Single steps lead to where one call for all of them does. -/
def StepsAgree (vals : ValidatorSet) : Prop :=
  ∀ k : Nat, 0 < k → (k : Int) ≤ maxInt32 → vals.stepwise k = vals.incrementProposerPriority k

/-- Every set that a call leads to, and that another one can follow, is
within the window. -/
def StaysInWindow (vals : ValidatorSet) : Prop :=
  ∀ a : Int, 0 < a → a < maxInt32 → ∀ vals',
    vals.incrementProposerPriority a = some vals' → vals'.InWindow

lemma turned_steady (h : vals.Steady vals.window)
    (hin : ∀ j < k + 1, (vals.turned j).InWindow) :
    (vals.turned k).Steady (vals.turned k).window := by
  have hafter := after_steady h (k := k + 1) fun j hj =>
    (inWindow_congr (vals.turned_validators j)).mp (hin j hj)
  rw [← window_after vals (k + 1)] at hafter
  have hturned := hafter.of_validators (vals.turned_validators k).symm
  have hwindow : (vals.turned k).window = (vals.after (k + 1)).window := by
    unfold window totalVotingPower
    rw [vals.turned_validators k]
  rwa [hwindow]

lemma exists_succ {a : Int} (h : 0 < a) : ∃ k : Nat, a = (k + 1 : Nat) :=
  ⟨a.toNat - 1, by omega⟩

lemma staysInWindow_iff (hne : vals.validators ≠ []) :
    vals.StaysInWindow
      ↔ ∀ k : Nat, (k + 1 : Nat) < maxInt32 →
        (vals.settled.turned k).InWindow := by
  constructor
  · intro h k hk
    exact h (k + 1 : Nat) (by omega) hk _ (incrementProposerPriority_eq hne)
  intro h a ha hlt vals' hcall
  obtain ⟨k, rfl⟩ := exists_succ ha
  rw [incrementProposerPriority_eq hne] at hcall
  cases hcall
  exact h k hlt

lemma pathIndependent_of_stays (hne : vals.validators ≠ [])
    (hfits : vals.Fits vals.window) (h : vals.StaysInWindow) :
    vals.PathIndependent := by
  rw [staysInWindow_iff hne] at h
  intro a b ha hb hle
  obtain ⟨i, rfl⟩ := exists_succ ha
  obtain ⟨j, rfl⟩ := exists_succ hb
  have hsteady := turned_steady (k := i) (by rw [window_settled]; exact settled_steady hne hfits)
    fun k hk => h k (by omega)
  rw [incrementProposerPriority_eq hne, bind_some,
    incrementProposerPriority_eq hsteady.ne, settled_idle hsteady, turned_turned]
  have hsum : ((i + 1 : Nat) : Int) + (j + 1 : Nat) = ((i + 1 + j + 1 : Nat) : Int) := by omega
  rw [hsum, incrementProposerPriority_eq hne]

lemma stepsAgree_of_pathIndependent (h : vals.PathIndependent) :
    vals.StepsAgree := by
  intro k hk
  obtain ⟨k, rfl⟩ := Nat.exists_eq_add_of_le' hk
  induction k with
  | zero =>
    intro _
    rfl
  | succ k ih =>
    intro hle
    rw [stepwise, ih (by omega) (by omega), h _ 1 (by omega) (by omega) (by omega)]
    rfl

/-- If a call for one more step never leads astray, the window is kept. -/
lemma stays_of_oneStep (hne : vals.validators ≠ [])
    (hfits : vals.Fits vals.window)
    (h : ∀ k : Nat, (k + 2 : Nat) ≤ maxInt32 →
      (vals.settled.turned k).settled.turned 0 = vals.settled.turned (k + 1)) :
    vals.StaysInWindow := by
  rw [staysInWindow_iff hne]
  intro k
  induction k using Nat.strongRecOn with
  | ind k ih =>
    intro hk
    have hstart : vals.settled.Steady vals.settled.window := by
      rw [window_settled]
      exact settled_steady hne hfits
    have hafter := after_succ_steady (after_steady hstart (k := k)
      fun j hj => (inWindow_congr (vals.settled.turned_validators j)).mp (ih j hj (by omega)))
    by_contra hout
    refine turned_settled_ne ?_ hout (h k (by omega))
    have hturned := hafter.of_validators (vals.settled.turned_validators k).symm
    have hpower : (vals.settled.turned k).totalVotingPower
        = (vals.settled.after (k + 1)).totalVotingPower := by
      unfold totalVotingPower
      rw [vals.settled.turned_validators k]
    rwa [hpower]

def sampleChange (address : UInt8) (power : Int) : Validator := ⟨[address], [address], power, 0⟩

def equalPowers : List Validator := [sampleChange 1 10, sampleChange 2 10, sampleChange 3 10]

def oldPowers : List Validator := [sampleChange 1 21, sampleChange 2 55, sampleChange 3 18]

def newPowers : List Validator := [sampleChange 1 6, sampleChange 2 1, sampleChange 3 3]

/-- The proposers after two steps and after one call for both, on the set with
the new powers. -/
def proposersAfterTwo : Option (Option Bytes × Option Bytes) := do
  let old ← newValidatorSet oldPowers
  let vals ← (old.updateWithChangeSet newPowers true).toOption
  let steps ← (vals.incrementProposerPriority 1).bind (·.incrementProposerPriority 1)
  let jump ← vals.incrementProposerPriority (1 + 1)
  return (steps.proposer.map Validator.address, jump.proposer.map Validator.address)

/-- For a set whose own rescaling does not overflow, two calls agree with one
exactly when every set that a call leads to is within the window, and so do
single steps. -/
theorem rotation_path_independent_iff (hne : vals.validators ≠ [])
    (hfits : vals.Fits vals.window) :
    (vals.PathIndependent ↔ vals.StaysInWindow)
      ∧ (vals.StepsAgree ↔ vals.StaysInWindow) := by
  have hstays := pathIndependent_of_stays hne hfits
  have hsteps : vals.StepsAgree → vals.StaysInWindow := by
    intro h
    refine stays_of_oneStep hne hfits fun k hk => ?_
    have hk1 := h (k + 1) (by omega) (by omega)
    have hk2 := h (k + 1 + 1) (by omega) (by omega)
    rw [incrementProposerPriority_eq hne] at hk1 hk2
    rw [stepwise, hk1] at hk2
    have hcall := @incrementProposerPriority_eq (vals.settled.turned k) 0
      (turned_ne (settled_steady hne hfits).ne k)
    exact some.inj (hcall.symm.trans hk2)
  exact ⟨⟨fun h => hsteps (stepsAgree_of_pathIndependent h), hstays⟩,
    hsteps, fun h => stepsAgree_of_pathIndependent (hstays h)⟩

/-- A set that comes back to where it was is within the window for ever, if
it is so until then. -/
lemma stays_of_period (hne : vals.validators ≠ []) {p : Nat} (hp : 0 < p)
    (hperiod : (vals.settled.after (p + 1)).validators
      = (vals.settled.after 1).validators)
    (hin : ∀ j < p, (vals.settled.after (j + 1)).InWindow) :
    vals.StaysInWindow := by
  have hagain : ∀ k, (vals.settled.after (k + p + 1)).validators
      = (vals.settled.after (k + 1)).validators := by
    intro k
    induction k with
    | zero =>
      rw [Nat.zero_add]
      exact hperiod
    | succ k ih =>
      rw [Nat.add_right_comm k 1 p, after_succ _ (k + p + 1),
        after_succ _ (k + 1)]
      exact (incrementOnce_congr ih).1
  rw [staysInWindow_iff hne]
  intro k hlt
  rw [inWindow_congr (vals.settled.turned_validators k)]
  clear hlt
  induction k using Nat.strongRecOn with
  | ind k ih =>
    by_cases hk : k < p
    · exact hin k hk
    have hback := hagain (k - p)
    rw [Nat.sub_add_cancel (Nat.not_lt.mp hk)] at hback
    exact (inWindow_congr hback).mpr (ih (k - p) (by omega))

/-- Three validators of one power take turns. -/
lemma equalPowers_stay : ∃ vals, newValidatorSet equalPowers = some vals
    ∧ vals.validators ≠ [] ∧ vals.Fits vals.window ∧ 0 < vals.size
    ∧ vals.StaysInWindow := by
  obtain ⟨vals, hvals⟩ : ∃ vals, newValidatorSet equalPowers = some vals :=
    Option.isSome_iff_exists.mp (by decide +kernel)
  have hall : ∀ vals ∈ newValidatorSet equalPowers, vals.validators ≠ []
      ∧ vals.Words
      ∧ Within vals.size vals.prio (maxInt64 - vals.window + 1)
      ∧ 0 < vals.size
      ∧ (vals.settled.after 4).validators = (vals.settled.after 1).validators
      ∧ ∀ j < 3, (vals.settled.after (j + 1)).InWindow := by
    unfold Words Within InWindow
    decide +kernel
  obtain ⟨hne, hwords, hwithin, hsize, hperiod, hin⟩ := hall vals hvals
  exact ⟨vals, hvals, hne, ⟨hwords, hwithin⟩, hsize,
    stays_of_period hne (by decide) hperiod hin⟩

theorem rotation_of_equals : ∃ vals, newValidatorSet equalPowers = some vals
    ∧ vals.StaysInWindow ∧ vals.PathIndependent ∧ vals.StepsAgree := by
  obtain ⟨vals, hvals, hne, hfits, -, hstays⟩ := equalPowers_stay
  obtain ⟨hpath, hsteps⟩ := rotation_path_independent_iff hne hfits
  exact ⟨vals, hvals, hstays, hpath.mpr hstays, hsteps.mpr hstays⟩

/-- After a change of powers, two nodes disagree on the proposer: one that
made two steps and one that made a call for both. -/
theorem rotation_skips_proposer :
    ∃ vals steps jump, Reachable vals
      ∧ (vals.incrementProposerPriority 1).bind
        (·.incrementProposerPriority 1) = some steps
      ∧ vals.incrementProposerPriority (1 + 1) = some jump
      ∧ steps.proposer.map Validator.address = some [1]
      ∧ jump.proposer.map Validator.address = some [3] := by
  have h : proposersAfterTwo = some (some [1], some [3]) := by decide +kernel
  unfold proposersAfterTwo at h
  obtain ⟨old, hold, h⟩ := bind_eq_some_iff.mp h
  obtain ⟨vals, hvals, h⟩ := bind_eq_some_iff.mp h
  obtain ⟨steps, hsteps, h⟩ := bind_eq_some_iff.mp h
  obtain ⟨jump, hjump, h⟩ := bind_eq_some_iff.mp h
  have hupdate : old.updateWithChangeSet newPowers true = .ok vals := by
    revert hvals
    cases old.updateWithChangeSet newPowers true with
    | error e => exact nofun
    | ok changed => exact fun hvals => congrArg _ (some.inj hvals)
  have hproposers := Prod.mk.inj (some.inj h)
  exact ⟨vals, steps, jump, .update (.new hold) hupdate, hsteps, hjump, hproposers.1, hproposers.2⟩

-- ==== Step after step

lemma totalVotingPower_settled (vals : ValidatorSet) :
    vals.settled.totalVotingPower = vals.totalVotingPower := by
  rw [totalVotingPower_eq, totalVotingPower_eq, weight_settled, size_settled]

lemma after_rest (vals : ValidatorSet) (k : Nat) :
    (vals.after k).size = vals.size ∧ (vals.after k).weight = vals.weight := by
  induction k with
  | zero => exact ⟨rfl, rfl⟩
  | succ k ih => rwa [after_succ, size_incrementOnce, weight_incrementOnce]

/-- Everyone gains their power, and the proposer pays the total. -/
lemma Steady.pays {d : Int} {i : Nat} (h : vals.Steady d) (hd : d ≤ 7 * maxTotalVotingPower)
    (hi : i < vals.size) : vals.incrementOnce.1.prio i = vals.prio i + vals.weight i
      - if vals.incrementOnce.2 = vals.incrementOnce.1.validators[i]? then vals.totalVotingPower
        else 0 := by
  obtain ⟨m, hm, hproposer⟩ := incrementOnce_turnOf h.ne (h.safe hd)
  have hwho : vals.incrementOnce.2 = vals.incrementOnce.1.validators[i]? ↔ i = m := by
    obtain ⟨v, hv⟩ := vals.incrementOnce.1.exists_getElem?
      (hi.trans_eq (size_incrementOnce _).symm)
    constructor
    · exact fun h => index_of_address hv (hproposer.symm.trans (h.trans hv)) rfl
    rintro rfl
    exact hproposer
  simp only [hm.pays i hi, hwho, totalVotingPower_eq]

/-- In how many of the first steps the validator becomes the proposer. -/
def turns (vals : ValidatorSet) (i k : Nat) : Nat :=
  (List.range k).countP fun j =>
    (vals.stepwise (j + 1)).any fun s => s.proposer = s.validators[i]?

section

variable (hne : vals.validators ≠ []) (hfits : vals.Fits vals.window)

include hne hfits

lemma settled_in_window : vals.settled.Steady vals.settled.window := by
  rw [window_settled]
  exact settled_steady hne hfits

lemma exists_oneStep :
    ∃ s, vals.incrementProposerPriority 1 = some s
      ∧ s.Steady (3 * s.totalVotingPower - 1)
      ∧ s.totalVotingPower = vals.totalVotingPower := by
  have hturned := vals.settled.turned_validators 0
  have hpower : (vals.settled.turned 0).totalVotingPower
      = (vals.settled.after 1).totalVotingPower := by
    unfold totalVotingPower
    rw [hturned]
  refine ⟨_, incrementProposerPriority_eq hne, ?_, ?_⟩
  · rw [hpower]
    exact (after_succ_steady (k := 0) (settled_in_window hne hfits)).of_validators hturned.symm
  rw [hpower, totalVotingPower_after, totalVotingPower_settled]

variable (hin : ∀ j < k, ∀ s, vals.stepwise (j + 1) = some s → s.InWindow)

include hin

lemma stepwise_turned :
    vals.stepwise (k + 1) = some (vals.settled.turned k) := by
  induction k using Nat.strongRecOn with
  | ind k ih =>
    cases k with
    | zero => exact incrementProposerPriority_eq hne
    | succ k =>
      have hsteady := turned_steady (k := k) (settled_in_window hne hfits) fun j hj =>
        hin j hj _ (ih j hj fun i hi => hin i (hi.trans hj))
      rw [stepwise, ih k k.lt_succ_self fun i hi => hin i (hi.trans k.lt_succ_self), bind_some]
      show (vals.settled.turned k).incrementProposerPriority (0 + 1 : Nat) = _
      rw [incrementProposerPriority_eq hsteady.ne, settled_idle hsteady, turned_turned]

lemma settled_after_steady : (vals.settled.after k).Steady vals.window := by
  rw [← window_settled]
  exact after_steady (settled_in_window hne hfits) fun j hj =>
    (inWindow_congr (vals.settled.turned_validators j)).mp
      (hin j hj _ (stepwise_turned hne hfits fun i hi => hin i (hi.trans hj)))

lemma turns_succ (i : Nat) : vals.turns i (k + 1) = vals.turns i k
    + if (vals.settled.after k).incrementOnce.2 = (vals.settled.after (k + 1)).validators[i]?
      then 1 else 0 := by
  unfold turns
  rw [List.range_succ, List.countP_append, List.countP_singleton,
    stepwise_turned hne hfits hin, any_some, turned_validators]
  simp only [decide_eq_true_eq]
  rfl

/-- The priority says how often the validator has been the proposer. -/
lemma prio_of_turns {i : Nat} (hi : i < vals.size) :
    (vals.settled.after k).prio i + vals.totalVotingPower * vals.turns i k
      = vals.settled.prio i + k * vals.weight i := by
  induction k with
  | zero => simp [turns, after]
  | succ k ih =>
    replace hin : ∀ j < k, ∀ s, vals.stepwise (j + 1) = some s → s.InWindow :=
      fun j hj => hin j (hj.trans k.lt_succ_self)
    have hbefore := ih hin
    have hle := vals.totalVotingPower_le
    have hpos := maxTotalVotingPower_pos
    obtain ⟨hsize, hweight⟩ := vals.settled.after_rest k
    rw [← size_settled, ← hsize] at hi
    have hpays := (settled_after_steady hne hfits hin).pays (by rw [window_eq]; omega) hi
    rw [← after_succ, totalVotingPower_after, totalVotingPower_settled, hweight, weight_settled]
      at hpays
    rw [turns_succ hne hfits hin, hpays]
    split <;> push_cast <;> linarith

end

/-- From the first step on, all priorities are below three times the total in
absolute value, whatever they were before. -/
theorem stepwise_bounded (hne : vals.validators ≠ []) (hfits : vals.Fits vals.window) (k : Nat) :
    ∃ s, vals.stepwise (k + 1) = some s
      ∧ ∀ v ∈ s.validators, |v.proposerPriority| < 3 * vals.totalVotingPower := by
  have hsteps : ∃ s, vals.stepwise (k + 1) = some s ∧ s.Steady (3 * s.totalVotingPower - 1)
      ∧ s.totalVotingPower = vals.totalVotingPower := by
    induction k with
    | zero => exact exists_oneStep hne hfits
    | succ k ih =>
      obtain ⟨s, hs, hsteady, hpower⟩ := ih
      have hle := s.totalVotingPower_le
      have hpos := maxTotalVotingPower_pos
      rw [stepwise, hs, bind_some, ← hpower]
      exact exists_oneStep hsteady.ne (hsteady.fits (by omega))
  obtain ⟨s, hs, hsteady, hpower⟩ := hsteps
  refine ⟨s, hs, forall_prio (P := fun p => |p| < _).mpr fun i hi => ?_⟩
  have hbounds := hsteady.centred.bounds hsteady.within hi
  rw [abs_lt]
  omega

theorem stepwise_bounded_equals : ∃ vals s, newValidatorSet equalPowers = some vals
    ∧ vals.stepwise 7 = some s
    ∧ ∀ v ∈ s.validators, |v.proposerPriority| < 3 * vals.totalVotingPower := by
  obtain ⟨vals, hvals, hne, hfits, -⟩ := equalPowers_stay
  obtain ⟨s, hs⟩ := stepwise_bounded hne hfits 6
  exact ⟨vals, s, hvals, hs⟩

/-- As long as the window is kept, the number of times that a validator is the
proposer differs from its share of the steps by at most four. -/
theorem turns_proportional (hne : vals.validators ≠ []) (hfits : vals.Fits vals.window)
    (hin : ∀ j < k, ∀ s, vals.stepwise (j + 1) = some s → s.InWindow) {i : Nat}
    (hi : i < vals.size) :
    |vals.totalVotingPower * vals.turns i k - k * vals.weight i| ≤ 4 * vals.totalVotingPower := by
  have haccount := prio_of_turns hne hfits hin hi
  have hstart := settled_steady hne hfits
  have hend := settled_after_steady hne hfits hin
  rw [← size_settled] at hi
  have hfirst := hstart.centred.bounds hstart.within hi
  have hlast := hend.centred.bounds hend.within (hi.trans_eq (vals.settled.after_rest k).1.symm)
  rw [window_eq] at hfirst hlast
  rw [abs_le]
  omega

/-- Of 300 steps, each of the three proposes in 96 to 104. -/
theorem turns_of_equals : ∃ vals, newValidatorSet equalPowers = some vals
    ∧ |vals.totalVotingPower * vals.turns 0 300 - (300 : Nat) * vals.weight 0|
      ≤ 4 * vals.totalVotingPower := by
  obtain ⟨vals, hvals, hne, hfits, hsize, hstays⟩ := equalPowers_stay
  have hsteps := stepsAgree_of_pathIndependent
    (pathIndependent_of_stays hne hfits hstays)
  refine ⟨vals, hvals, turns_proportional hne hfits (fun j hj s hs => ?_) hsize⟩
  have hle : ((j + 1 : Nat) : Int) < maxInt32 := by
    unfold maxInt32
    omega
  rw [hsteps (j + 1) (by omega) hle.le] at hs
  exact hstays (j + 1 : Nat) (by omega) hle s hs

end HetuEngine.Comet.ValidatorSet
