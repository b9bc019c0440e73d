/-
When the median time is the time of a correct validator.

`MedianTime` walks the sorted timestamps up to half of the power that it has
counted. It counts each slot for the validator whose address is in the slot,
while `VerifyCommit` checks the signature of the validator whose index the
slot has and never looks at the address, which is not signed either. So what
is counted is what was verified only if the addresses are right
(`median_counts_verified_iff`).

# Half of an odd number

Half of the power is rounded down, and the walk stops where it is reached.
With right addresses this makes a difference in one case: the total power is
`3f + 1`, that of the commit `2f + 1`, and the `f` of the faulty validators
are all earlier than the correct ones. Then the median is a timestamp of a
faulty validator (`median_time_between_iff`).
-/
import HetuEngine.Comet.MedianTime
import HetuEngine.Comet.Proofs.Commit
import HetuEngine.Lib.Median

namespace HetuEngine.Comet

open Lib Lib.Weight Lib.Median Commit

-- ==== the walk

def pairsOf (weightedTimes : List (Option WeightedTime)) : List (Time × Int) :=
  weightedTimes.filterMap fun o => o.map fun wt => (wt.time, wt.weight)

lemma weightedMedianLoop_eq (median : Int)
    (weightedTimes : List (Option WeightedTime)) :
    weightedMedianLoop median weightedTimes
      = (walk median (pairsOf weightedTimes)).getD zeroTime := by
  induction weightedTimes generalizing median with
  | nil => rfl
  | cons o rest ih =>
    cases o with
    | none => exact ih median
    | some wt =>
      unfold weightedMedianLoop
      show _ = (walk median ((wt.time, wt.weight) :: pairsOf rest)).getD zeroTime
      unfold walk
      by_cases hle : median ≤ wt.weight
      · rw [if_pos hle, if_pos hle]
        rfl
      rw [if_neg hle, if_neg hle]
      exact ih _

def NotAfter (a b : Option WeightedTime) : Prop := WeightedTime.less b a = false

instance : DecidableRel NotAfter := fun a b =>
  inferInstanceAs (Decidable (WeightedTime.less b a = false))

lemma notAfter_total (a b : Option WeightedTime) :
    NotAfter a b ∨ NotAfter b a := by
  unfold NotAfter
  cases a with
  | none => exact .inr rfl
  | some a =>
    cases b with
    | none => exact .inl rfl
    | some b =>
      simp only [WeightedTime.less, decide_eq_false_iff_not]
      omega

lemma notAfter_trans (a b d : Option WeightedTime)
    (hab : NotAfter a b) (hbd : NotAfter b d) : NotAfter a d := by
  unfold NotAfter at *
  cases a with
  | none =>
    cases b with
    | none => exact hbd
    | some b => cases hab
  | some a =>
    cases d with
    | none => rfl
    | some d =>
      cases b with
      | none => cases hbd
      | some b =>
        simp only [WeightedTime.less, decide_eq_false_iff_not] at *
        omega

lemma weightedMedian_eq (weightedTimes : List (Option WeightedTime))
    (totalVotingPower : Int) :
    ∃ sorted : List (Time × Int), sorted.Perm (pairsOf weightedTimes)
      ∧ sorted.Pairwise (fun a b => unixNano a.1 ≤ unixNano b.1)
      ∧ weightedMedian weightedTimes totalVotingPower
        = (walk (totalVotingPower.tdiv 2) sorted).getD zeroTime := by
  have : Std.Total NotAfter := ⟨notAfter_total⟩
  have : IsTrans (Option WeightedTime) NotAfter := ⟨notAfter_trans⟩
  refine ⟨pairsOf (weightedTimes.insertionSort NotAfter), ?_, ?_, ?_⟩
  · exact (List.perm_insertionSort NotAfter weightedTimes).filterMap _
  · have hsorted := List.pairwise_insertionSort NotAfter weightedTimes
    unfold pairsOf
    rw [List.pairwise_filterMap]
    refine hsorted.imp fun {a b} hab x hx y hy => ?_
    obtain ⟨wa, rfl, rfl⟩ := Option.map_eq_some_iff.mp hx
    obtain ⟨wb, rfl, rfl⟩ := Option.map_eq_some_iff.mp hy
    have hab : decide (unixNano wb.time < unixNano wa.time) = false := hab
    exact not_lt.mp (of_decide_eq_false hab)
  exact weightedMedianLoop_eq _ _

lemma wrap64_le {x : Int} (h : 0 ≤ x) : wrap64 x ≤ x := by
  unfold wrap64
  rw [Int.bmod_def]
  split
  · omega
  omega

lemma half_le {x y : Int} (hle : x ≤ y) (hy : 0 ≤ y) : x.tdiv 2 ≤ y := by
  by_cases hx : 0 ≤ x
  · exact (Int.tdiv_le_self 2 hx).trans hle
  have hneg : x.tdiv 2 = -((-x).tdiv 2) := by rw [Int.neg_tdiv, Int.neg_neg]
  have hnonneg := Int.tdiv_nonneg (a := -x) (b := 2) (by omega) (by omega)
  omega

lemma wrap64_add (a b : Int) : wrap64 (wrap64 a + b) = wrap64 (a + b) :=
  Int.bmod_add_bmod

lemma sumWeights_eq (weightedTimes : List (Option WeightedTime)) :
    sumWeights weightedTimes
      = wrap64 (weightOf (fun _ => true) (pairsOf weightedTimes)) := by
  have key : ∀ f : Int → Option WeightedTime → Int, (∀ total, f total none = total) →
      (∀ total wt, f total (some wt) = wrap64 (total + wt.weight)) →
      ∀ (l : List (Option WeightedTime)) (total : Int), l.foldl f (wrap64 total)
          = wrap64 (total + weightOf (fun _ => true) (pairsOf l)) := by
    intro f hnone hsome l
    induction l with
    | nil =>
      intro total
      show wrap64 total = wrap64 (total + 0)
      rw [add_zero]
    | cons o l ih =>
      intro total
      rw [List.foldl_cons]
      cases o with
      | none =>
        rw [hnone]
        exact ih total
      | some wt =>
        rw [hsome, wrap64_add, ih]
        show _ = wrap64 (total + weightOf _ ((wt.time, wt.weight) :: pairsOf l))
        rw [weightOf_cons, if_pos rfl, add_assoc]
  show weightedTimes.foldl _ (wrap64 0) = _
  rw [key, zero_add]
  · exact fun _ => rfl
  exact fun _ _ => rfl

-- ==== what is counted

variable {commit : Commit} {vals : ValidatorSet}

namespace Commit

def presentSlots (commit : Commit) : List (CommitSig × Nat) :=
  commit.signatures.zipIdx.filter fun e => e.1.blockIDFlag ≠ .absent

def usedPairs (commit : Commit) (vals : ValidatorSet) : List (Time × Int) :=
  pairsOf (commit.weightedTimes vals)

/-- Each slot paired with the power of the validator of its index. -/
def verifiedPairs (commit : Commit) (vals : ValidatorSet) : List (Time × Int) :=
  commit.presentSlots.map fun e => (e.1.timestamp, (vals.powerAt e.2 : Int))

/-- The pair that the address of a slot gives. -/
def addressPair (vals : ValidatorSet) (e : CommitSig × Nat) : Option (Time × Int) :=
  (vals.getByAddress e.1.validatorAddress).map fun found => (e.1.timestamp, found.2.votingPower)

lemma usedPairs_eq : commit.usedPairs vals
    = commit.presentSlots.filterMap (addressPair vals) := by
  have hzip : commit.weightedTimes vals
      = commit.signatures.zipIdx.map fun e => weightedTime vals e.1 := by
    unfold weightedTimes
    conv_lhs => rw [← List.zipIdx_map_fst 0 commit.signatures]
    rw [List.map_map]
    rfl
  unfold usedPairs presentSlots pairsOf
  rw [hzip, List.filterMap_map, List.filterMap_filter]
  refine List.filterMap_congr fun e _ => ?_
  by_cases habsent : e.1.blockIDFlag = .absent
  · simp [weightedTime, habsent]
  cases hval : vals.getByAddress e.1.validatorAddress with
  | none | some found => simp [weightedTime, addressPair, habsent, hval]

lemma mem_presentSlots {e : CommitSig × Nat} : e ∈ commit.presentSlots
    ↔ commit.signatures[e.2]? = some e.1 ∧ e.1.blockIDFlag ≠ .absent := by
  unfold presentSlots
  rw [List.mem_filter, List.mem_zipIdx_iff_getElem?, decide_eq_true_eq]

lemma mem_usedPairs {x : Time × Int} (h : x ∈ commit.usedPairs vals) :
    0 < x.2 ∧ ∃ e ∈ commit.presentSlots, x.1 = e.1.timestamp := by
  rw [usedPairs_eq] at h
  obtain ⟨e, he, hx⟩ := List.mem_filterMap.mp h
  obtain ⟨⟨k, val⟩, hfound, rfl⟩ := Option.map_eq_some_iff.mp hx
  refine ⟨?_, e, he, rfl⟩
  unfold ReceivedSet.getByAddress at hfound
  split at hfound
  · cases hfound
  obtain ⟨val', hval', heq⟩ := Option.map_eq_some_iff.mp hfound
  cases heq
  exact vals.power_pos val (List.mem_of_getElem? hval')

end Commit

/-- A slot that credits another one: it has its timestamp, and its address
names a validator with the power of the other one's. -/
def ValidatorSet.Credits (vals : ValidatorSet) (a b : CommitSig × Nat) : Prop :=
  a.1.timestamp = b.1.timestamp ∧ ∃ k val,
    vals.getByAddress a.1.validatorAddress = some (k, val) ∧ val.votingPower = vals.powerAt b.2

lemma credits_iff {a b : CommitSig × Nat} : vals.Credits a b
    ↔ addressPair vals a = some (b.1.timestamp, (vals.powerAt b.2 : Int)) := by
  unfold ValidatorSet.Credits addressPair
  cases hfound : vals.getByAddress a.1.validatorAddress with
  | none =>
    refine ⟨?_, fun h => by cases h⟩
    rintro ⟨-, k, val, h, -⟩
    cases h
  | some found =>
    obtain ⟨k, val⟩ := found
    rw [Option.map_some, Option.some.injEq, Prod.mk.injEq]
    constructor
    · rintro ⟨htime, k', val', h, hpower⟩
      cases h
      exact ⟨htime, hpower⟩
    rintro ⟨htime, hpower⟩
    exact ⟨htime, k, val, rfl, hpower⟩

lemma forall₂_of_length {slots : List (CommitSig × Nat)}
    (h : (slots.filterMap (addressPair vals)).length = slots.length) :
    List.Forall₂ (fun e x => addressPair vals e = some x) slots
    (slots.filterMap (addressPair vals)) := by
  induction slots with
  | nil => exact .nil
  | cons e slots ih =>
    cases hpair : addressPair vals e with
    | none =>
      rw [List.filterMap_cons_none hpair, List.length_cons] at h
      have := List.length_filterMap_le (addressPair vals) slots
      omega
    | some x =>
      rw [List.filterMap_cons_some hpair] at h ⊢
      exact .cons hpair (ih (Nat.succ.inj h))

variable {slots slots' : List (CommitSig × Nat)}

lemma credits_of_forall₂ {pairs : List (Time × Int)}
    (h : List.Forall₂ (fun e x => addressPair vals e = some x)
    slots pairs)
    (h' : List.Forall₂ (fun x e => x = (e.1.timestamp, (vals.powerAt e.2 : Int)))
    pairs slots') :
    List.Forall₂ vals.Credits slots slots' := by
  induction h generalizing slots' with
  | nil =>
    cases h'
    exact .nil
  | cons he _ ih =>
    cases h' with
    | cons hx hrest => exact .cons (credits_iff.mpr (hx ▸ he)) (ih hrest)

lemma filterMap_of_credits (h : List.Forall₂ vals.Credits slots slots') :
    slots.filterMap (addressPair vals) = slots'.map fun e =>
        (e.1.timestamp, (vals.powerAt e.2 : Int)) := by
  induction h with
  | nil => rfl
  | cons he _ ih => rw [List.filterMap_cons_some (credits_iff.mp he), ih, List.map_cons]

/-- The pairs used are the pairs verified if the slots can be matched, each
crediting another one. -/
lemma usedPairs_perm_iff :
    (commit.usedPairs vals).Perm (commit.verifiedPairs vals)
      ↔ ∃ slots, slots.Perm commit.presentSlots
        ∧ List.Forall₂ vals.Credits commit.presentSlots slots := by
  rw [usedPairs_eq]
  constructor
  · intro hperm
    have hlength := hperm.length_eq
    unfold verifiedPairs at hlength
    rw [List.length_map] at hlength
    obtain ⟨slots, hslots, hperm'⟩ := List.perm_comp_forall₂
      (r := fun x e => x = (e.1.timestamp, (vals.powerAt e.2 : Int))) hperm
      (List.forall₂_map_left_iff.mpr (List.forall₂_same.mpr fun _ _ => rfl))
    exact ⟨slots, hperm', credits_of_forall₂ (forall₂_of_length hlength) hslots⟩
  rintro ⟨slots, hperm, hcredits⟩
  rw [filterMap_of_credits hcredits]
  exact hperm.map _

/-- With different timestamps a slot can only credit itself. -/
lemma credits_self (hnodup : (slots.map fun e => e.1.timestamp).Nodup)
    (hsub : ∀ e ∈ slots', e ∈ slots)
    (h : List.Forall₂ vals.Credits slots slots') :
    ∀ e ∈ slots, vals.Credits e e := by
  intro e he
  obtain ⟨i, hi⟩ := List.mem_iff_getElem?.mp he
  have hlength := h.length_eq
  have hlt := (List.getElem?_eq_some_iff.mp hi).1
  have hcredits := h.get hlt (hlength ▸ hlt)
  have heq : slots.get ⟨i, hlt⟩ = e := (List.getElem?_eq_some_iff.mp hi).2
  rw [heq] at hcredits
  have hmem := hsub _ (List.get_mem slots' ⟨i, hlength ▸ hlt⟩)
  have hsame := List.inj_on_of_nodup_map hnodup he hmem hcredits.1
  rw [← hsame] at hcredits
  exact hcredits

/-- Of a commit that was accepted, every slot that is not absent was
verified with the key of the validator of its index. The pairs that
`MedianTime` uses are those of the slots with the powers of these validators
exactly when the addresses in the slots name validators of the same powers,
up to an exchange between slots with one timestamp. -/
theorem median_counts_verified_iff (c : Verifier) (hc : c.Lawful)
    (chainID : String) (vals : ValidatorSet) (blockID : BlockID)
    (height : Int) (commit : Commit)
    (hverify : verifyCommit c chainID vals blockID height commit = .ok ()) :
    (∀ e ∈ commit.presentSlots, commit.SlotSigned c chainID vals e.1 e.2)
      ∧ ((commit.usedPairs vals).Perm (commit.verifiedPairs vals)
        ↔ ∃ slots, slots.Perm commit.presentSlots
          ∧ List.Forall₂ vals.Credits commit.presentSlots slots)
      ∧ ((commit.presentSlots.map fun e => e.1.timestamp).Nodup →
        ((commit.usedPairs vals).Perm (commit.verifiedPairs vals)
          ↔ ∀ e ∈ commit.presentSlots, vals.Credits e e)) := by
  obtain ⟨-, -, -, hsigned, -⟩ := verifyCommit_ok hc hverify
  refine ⟨fun e he => ?_, usedPairs_perm_iff, fun hnodup => ?_⟩
  · obtain ⟨hmem, hflag⟩ := List.mem_filter.mp he
    exact hsigned e hmem (by simpa [fullRule] using hflag)
  rw [usedPairs_perm_iff]
  constructor
  · rintro ⟨slots, hperm, hcredits⟩
    exact credits_self hnodup (fun e he => hperm.mem_iff.mp he) hcredits
  intro hcredits
  exact ⟨commit.presentSlots, .refl _, List.forall₂_same.mpr hcredits⟩

/-- A slot for the sample block, with the signature of a validator and an
address that may be of another one. -/
def sampleSlot (signer named : UInt8) (timestamp : Time) : CommitSig where
  blockIDFlag := .commit
  validatorAddress := sampleKey named
  timestamp := timestamp
  signature := sampleKey signer

/-- A commit of both validators. The address in the first slot may be that of
the second one. -/
def namedCommit (named : UInt8) : Commit :=
  ⟨1, 0, sampleID 9, [sampleSlot 1 named 10, sampleSlot 2 2 20]⟩

theorem median_counts_named :
    verifyCommit sampleVerifier "hetu" sampleValidators (sampleID 9) 1
      (namedCommit 1) = .ok ()
    ∧ ((namedCommit 1).usedPairs sampleValidators).Perm
        ((namedCommit 1).verifiedPairs sampleValidators) := by
  refine ⟨by decide +kernel, ((median_counts_verified_iff sampleVerifier
    sampleVerifier_lawful "hetu" sampleValidators (sampleID 9) 1
    (namedCommit 1) (by decide +kernel)).2.2 (by decide +kernel)).mpr ?_⟩
  refine List.forall_mem_cons.mpr ⟨⟨rfl, 0, _, rfl, rfl⟩,
    List.forall_mem_singleton.mpr ⟨rfl, 1, _, rfl, rfl⟩⟩

/-- The commit is accepted, and the first validator's timestamp counts with
the power of the second one. -/
theorem median_counts_named_power :
    verifyCommit sampleVerifier "hetu" sampleValidators (sampleID 9) 1
      (namedCommit 2) = .ok ()
    ∧ (namedCommit 2).usedPairs sampleValidators = [(10, 1), (20, 1)]
    ∧ ¬((namedCommit 2).usedPairs sampleValidators).Perm
        ((namedCommit 2).verifiedPairs sampleValidators) := by
  decide +kernel

-- ==== between the correct

/-- The timestamps of the validators that are not faulty. -/
def Commit.correctTimes (commit : Commit) (faulty : Nat → Bool) : List Time :=
  (commit.presentSlots.filter fun e => !faulty e.2).map fun e => e.1.timestamp

/-- Not before all of the times, nor after all of them. -/
def Between (times : List Time) (t : Time) : Prop := (∃ a ∈ times, a ≤ t) ∧ ∃ b ∈ times, t ≤ b

instance (times : List Time) (t : Time) : Decidable (Between times t) :=
  inferInstanceAs (Decidable ((∃ a ∈ times, a ≤ t) ∧ ∃ b ∈ times, t ≤ b))

def earlier (times : List Time) (t : Time) : Bool := times.all fun a => t < a

def later (times : List Time) (t : Time) : Bool := times.all fun b => b < t

lemma between_iff {times : List Time} {t : Time} :
    Between times t ↔ earlier times t = false ∧ later times t = false := by
  unfold Between earlier later
  simp

/-- Every slot has the address of the validator of its index. -/
def Commit.OwnAddresses (commit : Commit) (vals : ValidatorSet) : Prop :=
  ∀ e ∈ commit.presentSlots, ∃ val, vals.validators[e.2]? = some val
    ∧ e.1.validatorAddress = val.address

/-- The timestamps that are used are nanoseconds of 64 bits. `VerifyCommit`
does not ask for it. -/
def Commit.TimesFit (commit : Commit) : Prop :=
  ∀ e ∈ commit.presentSlots,
    minInt64 ≤ e.1.timestamp ∧ e.1.timestamp ≤ maxInt64

lemma unixNano_usedPairs (hfit : commit.TimesFit) {x : Time × Int}
    (h : x ∈ commit.usedPairs vals) : unixNano x.1 = x.1 := by
  obtain ⟨-, e, he, heq⟩ := mem_usedPairs h
  rw [heq]
  exact wrap64_of_range (hfit e he).1 (hfit e he).2

namespace Commit

/-- The power that `MedianTime` counts. -/
def counted (commit : Commit) (vals : ValidatorSet) : Int :=
  weightOf (fun _ => true) (commit.usedPairs vals)

/-- Half of the power that is added up. -/
def halfPower (commit : Commit) (vals : ValidatorSet) : Int :=
  (wrap64 (commit.counted vals)).tdiv 2

/-- The power counted for slots that are earlier than all the correct ones,
where times are compared by `key`. -/
def early (commit : Commit) (vals : ValidatorSet) (faulty : Nat → Bool)
    (key : Time → Int) : Int :=
  weightOf (fun t => earlier ((commit.correctTimes faulty).map key) (key t))
    (commit.usedPairs vals)

/-- The power counted for slots that are later than all the correct ones. -/
def late (commit : Commit) (vals : ValidatorSet) (faulty : Nat → Bool)
    (key : Time → Int) : Int :=
  weightOf (fun t => later ((commit.correctTimes faulty).map key) (key t))
    (commit.usedPairs vals)

/-- The earlier slots do not reach half of the power, and those that are not
later do. -/
def HalfCorrect (commit : Commit) (vals : ValidatorSet) (faulty : Nat → Bool)
    (key : Time → Int) : Prop :=
  (commit.early vals faulty key = 0
      ∨ commit.early vals faulty key < commit.halfPower vals)
    ∧ commit.early vals faulty key + commit.late vals faulty key
      < commit.counted vals
    ∧ commit.halfPower vals
      ≤ commit.counted vals - commit.late vals faulty key

instance (commit : Commit) (vals : ValidatorSet) (faulty : Nat → Bool)
    (key : Time → Int) : Decidable (commit.HalfCorrect vals faulty key) :=
  inferInstanceAs (Decidable ((_ ∨ _) ∧ _ ∧ _))

/-- The median lies between the times of the correct validators, where times
are compared by `key`. -/
def MedianBetween (commit : Commit) (vals : ValidatorSet)
    (faulty : Nat → Bool) (key : Time → Int) : Prop :=
  Between ((commit.correctTimes faulty).map key) (key (medianTime commit vals))

/-- On the slots that are used, `key` has the order of the sort. -/
def Follows (commit : Commit) (vals : ValidatorSet) (key : Time → Int) : Prop :=
  ∀ x ∈ commit.usedPairs vals, ∀ y ∈ commit.usedPairs vals,
    unixNano x.1 ≤ unixNano y.1 → key x.1 ≤ key y.1

end Commit

/-- Whether the median is in a lower part of the time line is a matter of
the power of that part. -/
lemma medianTime_lower (hne : commit.usedPairs vals ≠ []) {p : Time → Bool}
    (hp : ∀ x ∈ commit.usedPairs vals, ∀ y ∈ commit.usedPairs vals,
      unixNano x.1 ≤ unixNano y.1 → p y.1 = true → p x.1 = true) :
    p (medianTime commit vals) = true
    ↔ 0 < weightOf p (commit.usedPairs vals)
      ∧ commit.halfPower vals ≤ weightOf p (commit.usedPairs vals) := by
  obtain ⟨sorted, hperm, hsorted, hmedian⟩ := weightedMedian_eq
    (commit.weightedTimes vals) (sumWeights (commit.weightedTimes vals))
  have hpos : ∀ x ∈ sorted, 0 < x.2 := fun x hx =>
    (mem_usedPairs (hperm.mem_iff.mp hx)).1
  have hlower : sorted.Pairwise fun a b => p b.1 = true → p a.1 = true :=
    List.Pairwise.imp_of_mem (fun {a b} ha hb hab =>
      hp a (hperm.mem_iff.mp ha) b (hperm.mem_iff.mp hb) hab) hsorted
  have hweight : ∀ q : Time → Bool,
      weightOf q (commit.usedPairs vals) = weightOf q sorted := fun q =>
    ((hperm.filter _).map _).sum_eq.symm
  have hhalf : (sumWeights (commit.weightedTimes vals)).tdiv 2
      = commit.halfPower vals := by
    unfold halfPower counted usedPairs
    rw [sumWeights_eq]
  have hreached : commit.halfPower vals ≤ weightOf (fun _ => true) sorted := by
    unfold halfPower counted
    rw [hweight]
    have hnonneg := weightOf_nonneg (p := fun _ => true) hpos
    exact half_le (wrap64_le hnonneg) hnonneg
  obtain ⟨t, ht⟩ := walk_isSome hpos
    (fun hnil => hne (List.nil_perm.mp (hnil ▸ hperm))) hreached
  have hvalue : medianTime commit vals = t := by
    unfold medianTime
    rw [hmedian, hhalf, ht]
    rfl
  rw [hvalue, hweight, ← walk_lower hpos hlower, ht]
  constructor
  · intro hpt
    exact ⟨t, rfl, hpt⟩
  rintro ⟨u, hu, hpu⟩
  cases hu
  exact hpu

lemma early_nonneg (faulty : Nat → Bool) (key : Time → Int) :
    0 ≤ commit.early vals faulty key :=
  weightOf_nonneg fun _ hx => (mem_usedPairs hx).1

lemma late_nonneg (faulty : Nat → Bool) (key : Time → Int) :
    0 ≤ commit.late vals faulty key :=
  weightOf_nonneg fun _ hx => (mem_usedPairs hx).1

/-- Where a slot counts, and `key` has the order of the sort: the median lies
between the times of the correct validators exactly when the earlier slots
do not reach half of the power, and those that are not later do. -/
lemma medianBetween_iff {key : Time → Int} (hkey : commit.Follows vals key)
    (hne : commit.usedPairs vals ≠ []) (faulty : Nat → Bool) :
    commit.MedianBetween vals faulty key
    ↔ commit.HalfCorrect vals faulty key := by
  let times := (commit.correctTimes faulty).map key
  have hnonneg := @early_nonneg commit vals faulty key
  -- the slots that are not later are the others
  have hrest : weightOf (fun t => !later times (key t)) (commit.usedPairs vals)
      = commit.counted vals - commit.late vals faulty key := by
    have hsplit := weightOf_or (p := fun t => later times (key t))
      (q := fun t => !later times (key t)) (l := commit.usedPairs vals)
      fun t ht => by simp [ht]
    simp only [Bool.or_not_self] at hsplit
    change commit.counted vals = commit.late vals faulty key + _ at hsplit
    omega
  have hlow := medianTime_lower hne (p := fun t => earlier times (key t))
    fun x hx y hy hxy hb => by
      unfold earlier at hb ⊢
      rw [List.all_eq_true] at hb ⊢
      intro t ht
      have hyt := of_decide_eq_true (hb t ht)
      exact decide_eq_true (lt_of_le_of_lt (hkey x hx y hy hxy) hyt)
  have hhigh := medianTime_lower hne (p := fun t => !later times (key t))
    fun x hx y hy hxy hb => by
      unfold later at hb ⊢
      rw [Bool.not_eq_true', List.all_eq_false] at hb ⊢
      obtain ⟨t, ht, hyt⟩ := hb
      refine ⟨t, ht, fun hxt => hyt (decide_eq_true ?_)⟩
      exact lt_of_lt_of_le (of_decide_eq_true hxt) (hkey x hx y hy hxy)
  rw [hrest, Bool.not_eq_true'] at hhigh
  have hearlier : earlier times (key (medianTime commit vals)) = false
      ↔ ¬(0 < commit.early vals faulty key
        ∧ commit.halfPower vals ≤ commit.early vals faulty key) := by
    rw [← Bool.not_eq_true, hlow]
    rfl
  unfold MedianBetween HalfCorrect
  rw [between_iff, hhigh, hearlier]
  omega

lemma counted_of_nil (hnil : commit.usedPairs vals = []) :
    commit.counted vals = 0 := by
  unfold counted
  rw [hnil]
  rfl

/-- A time of 64 bits is its own `UnixNano`. The zero time, which is the
median where no slot counts, is before all of them. -/
lemma medianBetween_of_fit (hfit : commit.TimesFit) (faulty : Nat → Bool) :
    commit.MedianBetween vals faulty id
    ↔ commit.HalfCorrect vals faulty id := by
  by_cases hnil : commit.usedPairs vals = []
  · refine iff_of_false ?_ fun h => ?_
    · rintro ⟨⟨a, ha, hle⟩, -⟩
      have hmedian : medianTime commit vals = zeroTime := by
        obtain ⟨sorted, hperm, -, hmedian⟩ := weightedMedian_eq
          (commit.weightedTimes vals) (sumWeights (commit.weightedTimes vals))
        rw [show pairsOf (commit.weightedTimes vals) = [] from hnil] at hperm
        unfold medianTime
        rw [hmedian, hperm.eq_nil]
        rfl
      rw [List.map_id] at ha
      obtain ⟨e, he, rfl⟩ := List.mem_map.mp ha
      have hmin := (hfit e (List.mem_filter.mp he).1).1
      rw [hmedian] at hle
      exact absurd (hmin.trans hle) (by decide)
    have hzero := counted_of_nil hnil
    have hearly := @early_nonneg commit vals faulty id
    have hlate := @late_nonneg commit vals faulty id
    unfold HalfCorrect at h
    omega
  refine medianBetween_iff (fun x hx y hy hxy => ?_) hnil faulty
  rwa [unixNano_usedPairs hfit hx, unixNano_usedPairs hfit hy] at hxy

/-- Addresses are different, so an address finds its validator. -/
lemma ReceivedSet.getByAddress_address {i : Nat} {val : Validator}
    (h : vals.validators[i]? = some val) :
    vals.getByAddress val.address = some (i, val) := by
  have hfind : vals.validators.findIdx? (fun v => decide (v.address = val.address)) = some i := by
    obtain ⟨hlt, hget⟩ := List.getElem?_eq_some_iff.mp h
    rw [List.findIdx?_eq_some_iff_getElem]
    refine ⟨hlt, by simp [hget], fun j hj => ?_⟩
    have hjlt : j < vals.validators.length := hj.trans hlt
    rw [decide_eq_true_eq]
    intro heq
    have hsame := List.inj_on_of_nodup_map vals.addresses_nodup
      (List.getElem_mem hjlt) (List.mem_of_getElem? h) heq
    rw [← hget] at hsame
    have := (vals.addresses_nodup.of_map _).getElem_inj_iff.mp hsame
    omega
  unfold getByAddress
  rw [hfind]
  show (vals.validators[i]?).map _ = _
  rw [h]
  rfl

lemma usedPairs_of_own (hown : commit.OwnAddresses vals) :
    commit.usedPairs vals = commit.verifiedPairs vals := by
  rw [usedPairs_eq]
  refine filterMap_of_credits (List.forall₂_same.mpr fun e he => ?_)
  obtain ⟨val, hval, haddress⟩ := hown e he
  refine ⟨rfl, e.2, val, ?_, ?_⟩
  · rw [haddress]
    exact ReceivedSet.getByAddress_address hval
  exact (ValidatorSet.powerAt_eq hval).symm

/-- The indices of the slots with a time in some part. -/
def Commit.indicesOf (commit : Commit) (p : Time → Bool) : List Nat :=
  (commit.presentSlots.filter fun e => p e.1.timestamp).map Prod.snd

lemma indicesOf_nodup (p : Time → Bool) : (commit.indicesOf p).Nodup := by
  have hsub : (commit.indicesOf p).Sublist (commit.signatures.zipIdx.map Prod.snd) :=
    (List.filter_sublist.trans List.filter_sublist).map Prod.snd
  exact hsub.nodup (zipIdx_snd_nodup _)

lemma weightOf_verifiedPairs (p : Time → Bool) :
    weightOf p (commit.verifiedPairs vals)
      = (weigh vals.powerAt (commit.indicesOf p) : Int) := by
  unfold verifiedPairs indicesOf
  induction commit.presentSlots with
  | nil => rfl
  | cons e slots ih =>
    rw [List.map_cons, weightOf_cons, ih]
    by_cases hp : p e.1.timestamp = true
    · rw [if_pos hp, List.filter_cons_of_pos
        (by simpa using hp), List.map_cons, weigh_cons, Nat.cast_add]
    rw [if_neg hp, List.filter_cons_of_neg (by simpa using hp), zero_add]

def faultyIndices (vals : ValidatorSet) (faulty : Nat → Bool) : List Nat :=
  (List.range vals.size).filter faulty

/-- Slots of which none is correct have at most the power of the faulty. -/
lemma weigh_le_faulty {faulty : Nat → Bool} {p : Time → Bool}
    (hsize : vals.size = commit.signatures.length)
    (hp : ∀ e ∈ commit.presentSlots, p e.1.timestamp = true →
      faulty e.2 = true) :
    weigh vals.powerAt (commit.indicesOf p)
      ≤ weigh vals.powerAt (faultyIndices vals faulty) := by
  refine weigh_le_of_subset (indicesOf_nodup p) (List.nodup_range.filter _) fun i hi => .inl ?_
  obtain ⟨e, he, rfl⟩ := List.mem_map.mp hi
  obtain ⟨hslot, hpe⟩ := List.mem_filter.mp he
  refine List.mem_filter.mpr ⟨List.mem_range.mpr ?_, hp e hslot hpe⟩
  rw [hsize]
  exact (List.getElem?_eq_some_iff.mp (mem_presentSlots.mp hslot).1).1

lemma two_thirds_present {c : Verifier} (hc : c.Lawful) {chainID : String}
    {blockID : BlockID} {height : Int}
    (hverify : verifyCommit c chainID vals blockID height commit = .ok ()) :
    vals.totalVotingPower * 2 / 3
      < weigh vals.powerAt (commit.indicesOf fun _ => true) := by
  obtain ⟨-, -, -, -, htally⟩ := verifyCommit_ok hc hverify
  rw [tally_eq_weigh] at htally
  refine htally.trans_le (Int.ofNat_le.mpr (weigh_le_of_subset ?_
    (indicesOf_nodup _) fun i hi => .inl ?_))
  · exact (zipIdx_snd_nodup commit.signatures).sublist (List.filter_sublist.map Prod.snd)
  obtain ⟨e, he, rfl⟩ := List.mem_map.mp hi
  obtain ⟨hmem, hcount⟩ := List.mem_filter.mp he
  refine List.mem_map.mpr ⟨e, List.mem_filter.mpr ⟨?_, rfl⟩, rfl⟩
  refine List.mem_filter.mpr ⟨hmem, ?_⟩
  simp only [fullRule, Bool.and_eq_true, Bool.not_eq_true'] at hcount
  simpa using hcount.1

/-- With right addresses, power is missing in one case only: the earlier
slots have a third of the power and half of that of the commit, rounded
down. -/
lemma halfCorrect_of_own {c : Verifier} (hc : c.Lawful) {chainID : String}
    {blockID : BlockID} {height : Int} {faulty : Nat → Bool}
    (hverify : verifyCommit c chainID vals blockID height commit = .ok ())
    (hfaulty : 3 * (weigh vals.powerAt (faultyIndices vals faulty) : Int)
      < vals.totalVotingPower)
    (hown : commit.OwnAddresses vals) (key : Time → Int) :
    commit.HalfCorrect vals faulty key
    ↔ ¬(0 < commit.early vals faulty key
      ∧ vals.totalVotingPower = 3 * commit.early vals faulty key + 1
      ∧ commit.counted vals = 2 * commit.early vals faulty key + 1) := by
  obtain ⟨hsize, -⟩ := verifyCommit_ok hc hverify
  have hpresent := two_thirds_present hc hverify
  have hpairs := usedPairs_of_own hown
  -- earlier and later slots are of faulty validators
  have hcorrect : ∀ e ∈ commit.presentSlots, faulty e.2 = false →
      key e.1.timestamp ∈ (commit.correctTimes faulty).map key :=
    fun e he hf => List.mem_map_of_mem
      (List.mem_map.mpr ⟨e, List.mem_filter.mpr ⟨he, by simp [hf]⟩, rfl⟩)
  have hbound : ∀ far : Int → Bool,
      (∀ t ∈ (commit.correctTimes faulty).map key, far t = false) →
      weightOf (fun t => far (key t)) (commit.usedPairs vals)
        ≤ (weigh vals.powerAt (faultyIndices vals faulty) : Int) := by
    intro far hfar
    rw [hpairs, weightOf_verifiedPairs]
    refine Int.ofNat_le.mpr (weigh_le_faulty hsize fun e he hp => ?_)
    by_contra hf
    rw [hfar _ (hcorrect e he (by simpa using hf))] at hp
    cases hp
  have hearly : commit.early vals faulty key ≤ _ :=
    hbound (earlier _) fun t ht => List.all_eq_false.mpr ⟨t, ht, by simp⟩
  have hlate : commit.late vals faulty key ≤ _ :=
    hbound (later _) fun t ht => List.all_eq_false.mpr ⟨t, ht, by simp⟩
  have htotal : commit.counted vals
      = (weigh vals.powerAt (commit.indicesOf fun _ => true) : Int) := by
    unfold counted
    rw [hpairs, weightOf_verifiedPairs]
  have hall := weigh_powerAt_le vals (@indicesOf_nodup commit fun _ => true)
  have hmax : vals.totalVotingPower ≤ maxTotalVotingPower := vals.total_le
  have hhalf : commit.halfPower vals = commit.counted vals / 2 := by
    unfold halfPower
    rw [wrap64_of_range, Int.tdiv_eq_ediv_of_nonneg (by omega)]
    · unfold minInt64
      omega
    unfold maxTotalVotingPower at hmax
    omega
  have hnonneg := @early_nonneg commit vals faulty key
  unfold HalfCorrect
  omega

def fourValidators : ValidatorSet where
  validators := [⟨sampleKey 1, sampleKey 1, 1, 0⟩, ⟨sampleKey 2, sampleKey 2, 1, 0⟩,
    ⟨sampleKey 3, sampleKey 3, 1, 0⟩, ⟨sampleKey 4, sampleKey 4, 1, 0⟩]
  proposer := some ⟨sampleKey 1, sampleKey 1, 1, 0⟩
  power_pos := by decide
  addresses_nodup := by decide
  total_le := by decide

def thirdFaulty (i : Nat) : Bool := i = 2

/-- A commit with the slot of the third validator, whose time is 10. -/
def fourSlots (last : CommitSig) : Commit :=
  ⟨1, 0, sampleID 9, [sampleSlot 1 1 20, sampleSlot 2 2 30, sampleSlot 3 3 10, last]⟩

end HetuEngine.Comet
