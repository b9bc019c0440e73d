/-
Making and changing validator sets (types/validator_set.go of
hetu-cometbft): `NewValidatorSet` and `UpdateWithChangeSet`.

A change names a validator and its new power; power zero removes it. The
changes are sorted by address and scanned for duplicates, checked against
the set, merged into its list, sorted by address for that, and the result is
scaled, centred and sorted by power. A validator that joins starts at -1.125
times the power that the set has before anybody is removed.

`apply_ok` is the reason why the result is a validator set again: the
changes are strictly sorted by address (`scanChanges_ok`), merging two
strictly sorted lists gives one (`mergeUpdates_sorted`), and a removal only
takes away. `sort.Sort` is not stable, but no two entries sorted here are
equal, except where the scan then refuses a duplicate.
-/
import HetuEngine.Lib.Fallible
import HetuEngine.Comet.ValidatorSet
import Mathlib.Data.List.Sort
import Mathlib.Algebra.Order.BigOperators.Group.List

namespace HetuEngine.Comet

open Validator

inductive ChangeError where
  /-- `duplicate entry %v in %v` -/
  | duplicate
  /-- `voting power can't be negative: %d` -/
  | negativePower
  /-- `to prevent clipping/overflow, voting power can't be higher than %d` -/
  | powerTooHigh
  /-- `cannot process validators with voting power 0: %v` -/
  | deletesNotAllowed
  /-- `applying the validator changes would result in empty set` -/
  | emptySet
  /-- `failed to find validator %X to remove` -/
  | removalNotFound
  | totalVotingPowerOverflow
  /-- a panic of the run time, or of a check that should not fail -/
  | panic

-- ==== Checking the changes

def byAddress (a b : Validator) : Prop := a.address ≤ b.address

instance : DecidableRel byAddress := fun a b => inferInstanceAs (Decidable (a.address ≤ b.address))

def byVotingPower (a b : Validator) : Prop :=
  b.votingPower < a.votingPower ∨ (a.votingPower = b.votingPower ∧ a.address ≤ b.address)

instance : DecidableRel byVotingPower := fun a b =>
  inferInstanceAs (Decidable (b.votingPower < a.votingPower
    ∨ (a.votingPower = b.votingPower ∧ a.address ≤ b.address)))

/-- The loop of `processChanges` over the sorted changes: the updates and the
removals. -/
def scanChanges (prevAddr : Bytes) :
    List Validator → Except ChangeError (List Validator × List Validator)
  | [] => .ok ([], [])
  | valUpdate :: rest =>
    if valUpdate.address = prevAddr then .error .duplicate
    else if valUpdate.votingPower < 0 then .error .negativePower
    else if maxTotalVotingPower < valUpdate.votingPower then .error .powerTooHigh
    else
      match scanChanges valUpdate.address rest with
      | .error e => .error e
      | .ok (updates, removals) =>
        if valUpdate.votingPower = 0 then .ok (updates, valUpdate :: removals)
        else .ok (valUpdate :: updates, removals)

def processChanges (origChanges : List Validator) :
    Except ChangeError (List Validator × List Validator) :=
  scanChanges [] (origChanges.insertionSort byAddress)

namespace ValidatorSet

def numNewValidators (vals : ValidatorSet) (updates : List Validator) : Nat :=
  updates.countP fun valUpdate => !vals.hasAddress valUpdate.address

/-- `verifyRemovals`: the power that will be removed. -/
def verifyRemovals (vals : ValidatorSet) : List Validator → Except ChangeError Int
  | [] => .ok 0
  | valUpdate :: rest =>
    match vals.getByAddress valUpdate.address with
    | none => .error .removalNotFound
    | some (_, val) =>
      match vals.verifyRemovals rest with
      | .error e => .error e
      | .ok removed => .ok (val.votingPower + removed)

/-- The `delta` of `verifyUpdates`. -/
def delta (vals : ValidatorSet) (update : Validator) : Int :=
  match vals.getByAddress update.address with
  | some (_, val) => update.votingPower - val.votingPower
  | none => update.votingPower

def addDeltas (vals : ValidatorSet) (tvpAfterRemovals : Int) :
    List Validator → Except ChangeError Int
  | [] => .ok tvpAfterRemovals
  | upd :: rest =>
    let tvp := tvpAfterRemovals + vals.delta upd
    if maxTotalVotingPower < tvp then .error .totalVotingPowerOverflow
    else vals.addDeltas tvp rest

/-- `verifyUpdates`: the power after the updates and before the removals. -/
def verifyUpdates (vals : ValidatorSet) (updates : List Validator)
    (removedPower : Int) : Except ChangeError Int :=
  let updatesCopy := updates.insertionSort fun a b => vals.delta a ≤ vals.delta b
  (vals.addDeltas (vals.totalVotingPower - removedPower) updatesCopy).map (· + removedPower)

/-- `computeNewPriorities`. The power is not negative, so that the division
is the shift by three. -/
def computeNewPriorities (vals : ValidatorSet) (updates : List Validator)
    (updatedTotalVotingPower : Int) : List Validator :=
  updates.map fun valUpdate =>
    { valUpdate with
      proposerPriority :=
        match vals.getByAddress valUpdate.address with
        | none => -(updatedTotalVotingPower + updatedTotalVotingPower / 8)
        | some (_, val) => val.proposerPriority }

end ValidatorSet

-- ==== Applying them

/-- The updates that come before `e` and `e` itself, unless it is updated;
`rest` merges what follows. -/
def mergeBefore (e : Validator)
    (rest : List Validator → List Validator) : List Validator → List Validator
  | [] => e :: rest []
  | u :: updates =>
    if e.address < u.address then e :: rest (u :: updates)
    else if e.address = u.address then u :: rest updates
    else u :: mergeBefore e rest updates

/-- The loop of `applyUpdates`, over the list sorted by address. -/
def mergeUpdates : (existing updates : List Validator) → List Validator
  | [], updates => updates
  | e :: existing, updates => mergeBefore e (mergeUpdates existing) updates

/-- `applyRemovals`; nothing if the list ends before the removals do. -/
def applyRemovals : (existing deletes : List Validator) → Option (List Validator)
  | existing, [] => some existing
  | [], _ :: _ => none
  | e :: existing, d :: deletes =>
    if e.address = d.address then applyRemovals existing deletes
    else (applyRemovals existing (d :: deletes)).map (e :: ·)

/-- The part of `updateWithChangeSet` up to the check of the total. -/
def ValidatorSet.applyChanges (vals : ValidatorSet) (changes : List Validator)
    (allowDeletes : Bool) : Except ChangeError (List Validator) := do
  let (updates, deletes) ← processChanges changes
  if !allowDeletes && deletes.length ≠ 0 then throw .deletesNotAllowed
  if vals.numNewValidators updates = 0 && vals.size = deletes.length then throw .emptySet
  let removedVotingPower ← vals.verifyRemovals deletes
  if vals.size < deletes.length then throw .panic
  let tvp ← vals.verifyUpdates updates removedVotingPower
  let updates := vals.computeNewPriorities updates tvp
  let merged := mergeUpdates (vals.validators.insertionSort byAddress) updates
  match applyRemovals merged deletes with
  | none => throw .panic
  | some validators =>
    if maxTotalVotingPower < (validators.map Validator.votingPower).sum then throw .panic
    else return validators

-- ==== What the checks guarantee

def AddressSorted (vs : List Validator) : Prop := vs.Pairwise fun a b => a.address < b.address

lemma AddressSorted.nodup {vs : List Validator} (h : AddressSorted vs) :
    (vs.map address).Nodup :=
  List.pairwise_map.mpr (h.imp fun hlt heq => by
    rw [heq] at hlt
    exact Std.lt_irrefl hlt)

instance : Std.Total byAddress where
  total a b := Std.Total.total a.address b.address

instance : IsTrans Validator byAddress where
  trans _ _ _ := Std.le_trans

lemma ValidatorSet.sorted (vals : ValidatorSet) :
    AddressSorted (vals.validators.insertionSort byAddress) := by
  have hperm := List.perm_insertionSort byAddress vals.validators
  have hnodup : ((vals.validators.insertionSort byAddress).map address).Nodup :=
    (hperm.map _).nodup_iff.mpr vals.addresses_nodup
  have hsorted := List.pairwise_insertionSort byAddress vals.validators
  exact (hsorted.and (List.pairwise_map.mp hnodup)).imp fun h => Std.lt_of_le_of_ne h.1 h.2

lemma scanChanges_ok {changes updates removals : List Validator}
    {prevAddr : Bytes}
    (h : scanChanges prevAddr changes = .ok (updates, removals))
    (hsorted : changes.Pairwise byAddress)
    (hprev : ∀ v ∈ changes, prevAddr ≤ v.address) :
    AddressSorted changes ∧ (∀ v ∈ changes, prevAddr < v.address)
      ∧ (∀ v ∈ changes, 0 ≤ v.votingPower)
      ∧ updates = changes.filter (fun v => v.votingPower ≠ 0)
      ∧ removals = changes.filter (fun v => v.votingPower = 0) := by
  induction changes generalizing updates removals prevAddr with
  | nil =>
    cases h
    exact ⟨.nil, by simp, by simp, rfl, rfl⟩
  | cons v changes ih =>
    rw [List.pairwise_cons] at hsorted
    rw [scanChanges] at h
    split at h
    · cases h
    split at h
    · cases h
    split at h
    · cases h
    next hdup hneg hhigh =>
    split at h
    · cases h
    next us rs hscan =>
    obtain ⟨hs, hlt, hpow, rfl, rfl⟩ := ih hscan hsorted.2 hsorted.1
    have hv : prevAddr < v.address := Std.lt_of_le_of_ne (hprev v List.mem_cons_self) (Ne.symm hdup)
    refine ⟨List.pairwise_cons.mpr ⟨hlt, hs⟩, ?_, ?_, ?_⟩
    · intro w hw
      rcases List.mem_cons.mp hw with rfl | hw
      · exact hv
      exact Std.lt_trans hv (hlt w hw)
    · intro w hw
      rcases List.mem_cons.mp hw with rfl | hw
      · exact not_lt.mp hneg
      exact hpow w hw
    by_cases hzero : v.votingPower = 0
    · rw [if_pos hzero] at h
      cases h
      simp [hzero]
    rw [if_neg hzero] at h
    cases h
    simp [hzero]

lemma mem_mergeUpdates {v : Validator} : ∀ {existing updates : List Validator},
    v ∈ mergeUpdates existing updates → v ∈ existing ∨ v ∈ updates := by
  intro existing
  induction existing with
  | nil => exact fun h => .inr h
  | cons e existing ih =>
    intro updates
    rw [mergeUpdates]
    induction updates with
    | nil =>
      intro h
      rw [mergeBefore, List.mem_cons] at h
      rcases h with rfl | h
      · exact .inl List.mem_cons_self
      exact (ih h).imp_left (List.mem_cons_of_mem _)
    | cons u updates ihu =>
      intro h
      rw [mergeBefore] at h
      split at h
      · rcases List.mem_cons.mp h with rfl | h
        · exact .inl List.mem_cons_self
        exact (ih h).imp_left (List.mem_cons_of_mem _)
      split at h
      · rcases List.mem_cons.mp h with rfl | h
        · exact .inr List.mem_cons_self
        exact (ih h).imp (List.mem_cons_of_mem _) (List.mem_cons_of_mem _)
      rcases List.mem_cons.mp h with rfl | h
      · exact .inr List.mem_cons_self
      exact (ihu h).imp_right (List.mem_cons_of_mem _)

lemma mergeUpdates_sorted :
    ∀ {existing updates : List Validator}, AddressSorted existing →
      AddressSorted updates →
      AddressSorted (mergeUpdates existing updates) := by
  intro existing
  induction existing with
  | nil => exact fun _ h => h
  | cons e existing ih =>
    intro updates he
    obtain ⟨hlt, hs⟩ := List.pairwise_cons.mp he
    rw [mergeUpdates]
    induction updates with
    | nil =>
      intro hu
      refine List.pairwise_cons.mpr ⟨fun v hv => ?_, ih hs hu⟩
      rcases mem_mergeUpdates hv with hv | hv
      · exact hlt v hv
      cases hv
    | cons u updates ihu =>
      intro hu
      obtain ⟨hltu, hsu⟩ := List.pairwise_cons.mp hu
      rw [mergeBefore]
      split
      · next heu =>
        refine List.pairwise_cons.mpr ⟨fun v hv => ?_, ih hs hu⟩
        rcases mem_mergeUpdates hv with hv | hv
        · exact hlt v hv
        rcases List.mem_cons.mp hv with rfl | hv
        · exact heu
        exact Std.lt_trans heu (hltu v hv)
      next hne =>
      split
      · next heq =>
        refine List.pairwise_cons.mpr ⟨fun v hv => ?_, ih hs hsu⟩
        rcases mem_mergeUpdates hv with hv | hv
        · rw [← heq]
          exact hlt v hv
        exact hltu v hv
      next hneq =>
      have hue : u.address < e.address := Std.lt_of_le_of_ne (Std.not_lt.mp hne) (Ne.symm hneq)
      refine List.pairwise_cons.mpr ⟨fun v hv => ?_, ihu hsu⟩
      have hmem := @mem_mergeUpdates v (e :: existing) updates hv
      rcases hmem with hv | hv
      · rcases List.mem_cons.mp hv with rfl | hv
        · exact hue
        exact Std.lt_trans hue (hlt v hv)
      exact hltu v hv

lemma applyRemovals_sublist {existing deletes rest : List Validator}
    (h : applyRemovals existing deletes = some rest) :
    rest.Sublist existing := by
  induction existing generalizing deletes rest with
  | nil =>
    cases deletes with
    | nil =>
      cases h
      exact .slnil
    | cons => cases h
  | cons e existing ih =>
    cases deletes with
    | nil =>
      cases h
      exact List.Sublist.refl _
    | cons d deletes =>
      rw [applyRemovals] at h
      split at h
      · exact (ih h).cons _
      obtain ⟨rest', hrest, rfl⟩ := Option.map_eq_some_iff.mp h
      exact (ih hrest).cons_cons _

structure ValidList (vs : List Validator) : Prop where
  power_pos : ∀ v ∈ vs, 0 < v.votingPower
  sorted : AddressSorted vs
  total_le : (vs.map Validator.votingPower).sum ≤ maxTotalVotingPower

variable {changes vs : List Validator}

variable {allowDeletes : Bool} {vals : ValidatorSet}

lemma ValidatorSet.applyChanges_inv
    (h : vals.applyChanges changes allowDeletes = .ok vs) :
    ∃ updates deletes removed tvp, processChanges changes
      = .ok (updates, deletes)
      ∧ (allowDeletes = true ∨ deletes = [])
      ∧ ¬ (vals.numNewValidators updates = 0 ∧ vals.size = deletes.length)
      ∧ vals.verifyRemovals deletes = .ok removed
      ∧ vals.verifyUpdates updates removed = .ok tvp
      ∧ applyRemovals (mergeUpdates (vals.validators.insertionSort byAddress)
        (vals.computeNewPriorities updates tvp)) deletes = some vs
      ∧ (vs.map votingPower).sum ≤ maxTotalVotingPower := by
  obtain ⟨⟨updates, deletes⟩, hprocess, h⟩ := Lib.Fallible.bind_eq_ok.mp h
  simp only at h
  split at h
  · cases h
  next hallow =>
  split at h
  · cases h
  next hempty =>
  obtain ⟨removed, hremoved, h⟩ := Lib.Fallible.bind_eq_ok.mp h
  split at h
  · cases h
  obtain ⟨tvp, htvp, h⟩ := Lib.Fallible.bind_eq_ok.mp h
  split at h
  · cases h
  next validators hrest =>
  split at h
  · cases h
  next htotal =>
  cases h
  refine ⟨updates, deletes, removed, tvp, hprocess, ?_, ?_, hremoved, htvp, hrest, not_lt.mp htotal⟩
  · cases allowDeletes with
    | true => exact .inl rfl
    | false => exact .inr (by simpa using hallow)
  simpa using hempty

lemma processChanges_ok {updates deletes : List Validator}
    (h : processChanges changes = .ok (updates, deletes)) :
    AddressSorted updates ∧ (∀ v ∈ updates, 0 < v.votingPower) := by
  obtain ⟨hsorted, -, hpow, rfl, -⟩ :=
    scanChanges_ok h (List.pairwise_insertionSort byAddress changes)
    (fun v _ => List.nil_le _)
  refine ⟨hsorted.filter _, fun v hv => ?_⟩
  obtain ⟨hmem, hne⟩ := List.mem_filter.mp hv
  have := hpow v hmem
  have : v.votingPower ≠ 0 := of_decide_eq_true hne
  omega

lemma ValidatorSet.applyChanges_valid
    (h : vals.applyChanges changes allowDeletes = .ok vs) : ValidList vs := by
  obtain ⟨updates, deletes, removed, tvp, hprocess, -, -, -, -, hrest, htotal⟩ := applyChanges_inv h
  obtain ⟨hsorted, hpow⟩ := processChanges_ok hprocess
  have hsub := applyRemovals_sublist hrest
  refine ⟨fun v hv => ?_, ?_, htotal⟩
  · rcases mem_mergeUpdates (hsub.mem hv) with hv | hv
    · exact vals.power_pos v ((List.perm_insertionSort _ _).mem_iff.mp hv)
    obtain ⟨u, hu, rfl⟩ := List.mem_map.mp hv
    exact hpow u hu
  refine (mergeUpdates_sorted vals.sorted ?_).sublist hsub
  exact List.pairwise_map.mpr hsorted

-- ==== The functions

namespace ValidatorSet

def sortByVotingPower (vals : ValidatorSet) : ValidatorSet where
  validators := vals.validators.insertionSort byVotingPower
  proposer := vals.proposer
  power_pos v hv := vals.power_pos v ((List.perm_insertionSort _ _).mem_iff.mp hv)
  addresses_nodup := ((List.perm_insertionSort _ _).map _).nodup_iff.mpr vals.addresses_nodup
  total_le := by
    rw [((List.perm_insertionSort _ _).map _).sum_eq]
    exact vals.total_le

def updateWithChangeSet (vals : ValidatorSet) (changes : List Validator)
    (allowDeletes : Bool) : Except ChangeError ValidatorSet :=
  if changes = [] then .ok vals
  else
    match h : vals.applyChanges changes allowDeletes with
    | .error e => .error e
    | .ok validators =>
      let changed : ValidatorSet := {
        validators
        proposer := vals.proposer
        power_pos := (applyChanges_valid h).power_pos
        addresses_nodup := (applyChanges_valid h).sorted.nodup
        total_le := (applyChanges_valid h).total_le }
      .ok ((changed.rescalePriorities (priorityWindowSizeFactor * changed.totalVotingPower))
        |>.shiftByAvgProposerPriority |>.sortByVotingPower)

def empty : ValidatorSet where
  validators := []
  proposer := none
  power_pos := by simp
  addresses_nodup := List.nodup_nil
  total_le := by decide

/-- `NewValidatorSet`; nothing on a panic. -/
def newValidatorSet (valz : List Validator) : Option ValidatorSet :=
  match empty.updateWithChangeSet valz false with
  | .error _ => none
  | .ok vals => if valz = [] then some vals else vals.incrementProposerPriority 1

/-- The sets that these functions make one from the other. -/
inductive Reachable : ValidatorSet → Prop
  | new {valz vals} (h : newValidatorSet valz = some vals) : Reachable vals
  | update {vals vals' changes} (hvals : Reachable vals)
      (h : vals.updateWithChangeSet changes true = .ok vals') : Reachable vals'
  | increment {vals vals' times} (hvals : Reachable vals)
      (h : vals.incrementProposerPriority times = some vals') : Reachable vals'

end ValidatorSet

end HetuEngine.Comet
