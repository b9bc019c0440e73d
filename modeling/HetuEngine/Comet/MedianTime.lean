/-
The time of a block: the weighted median of the timestamps in the last
commit (types/time/time.go, state/state.go of hetu-cometbft).

The validator of a slot is looked up by its address, and slots of unknown
addresses are left out. `sort.Slice` leaves the order of equal entries open;
the model inserts one after the other, as the library does for short slices.
-/
import HetuEngine.Comet.Commit
import Mathlib.Data.List.Sort

namespace HetuEngine.Comet

structure WeightedTime where
  time : Time
  weight : Int

/-- `Time.UnixNano`: an int64, which wraps around for times before the year
1678 and after the year 2262. -/
def unixNano (t : Time) : Int := wrap64 t

/-- The order in which `WeightedMedian` sorts: entries that are nil last. -/
def WeightedTime.less : Option WeightedTime → Option WeightedTime → Bool
  | none, _ => false
  | some _, none => true
  | some a, some b => unixNano a.time < unixNano b.time

/-- The loop of `WeightedMedian`. Weights are positive, so that `median`
stays positive where they are subtracted. -/
def weightedMedianLoop : Int → List (Option WeightedTime) → Time
  | _, [] => zeroTime
  | median, none :: rest => weightedMedianLoop median rest
  | median, some weightedTime :: rest =>
    if median ≤ weightedTime.weight then weightedTime.time
    else weightedMedianLoop (median - weightedTime.weight) rest

def weightedMedian (weightedTimes : List (Option WeightedTime)) (totalVotingPower : Int) : Time :=
  weightedMedianLoop (totalVotingPower.tdiv 2)
    (weightedTimes.insertionSort fun a b => WeightedTime.less b a = false)

namespace Commit

def weightedTime (validators : ValidatorSet) (commitSig : CommitSig) : Option WeightedTime :=
  if commitSig.blockIDFlag = .absent then none
  else
    match validators.getByAddress commitSig.validatorAddress with
    | none => none
    | some (_, validator) => some ⟨commitSig.timestamp, validator.votingPower⟩

def weightedTimes (commit : Commit) (validators : ValidatorSet) : List (Option WeightedTime) :=
  commit.signatures.map (weightedTime validators)

end Commit

def sumWeights (weightedTimes : List (Option WeightedTime)) : Int :=
  weightedTimes.foldl (fun total weightedTime =>
      match weightedTime with
      | none => total
      | some weightedTime => wrap64 (total + weightedTime.weight)) 0

def medianTime (commit : Commit) (validators : ValidatorSet) : Time :=
  weightedMedian (commit.weightedTimes validators) (sumWeights (commit.weightedTimes validators))

end HetuEngine.Comet
