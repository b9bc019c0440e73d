/-
`ValidatorSetFromExistingValidators` (types/validator_set.go): the set that
is rebuilt from a list of validators, with the proposer guessed as the one
that `findPreviousProposer` finds behind all others.

`Proposer` is a pointer. It shares the priority of an entry of `Validators`
until an update puts a copy there or removes it, so the sets here come with
what the pointer leads to. The guess is right exactly where the proposer is
behind all others (`rebuild_iff`). A strong validator that proposes after a
weak one is not (`rebuild_differs`).
-/
import HetuEngine.Comet.Header
import HetuEngine.Comet.Proofs.VoteSet
import HetuEngine.Comet.ValidatorUpdates

namespace HetuEngine.Comet

-- ==== rebuilding

inductive RebuildError where
  | empty
  | invalid
  | panic

/-- `findPreviousProposer`, of validators with different addresses. -/
def findPreviousProposer (valz : List Validator) : Option Validator :=
  valz.foldl (fun previousProposer val => some (previousProposer.elim val fun p =>
      if p = p.compareProposerPriority val then val else p))
    none

def validatorSetFromExistingValidators (c : Crypto)
    (valz : List Validator) : Except RebuildError ReceivedSet :=
  if valz = [] then .error .empty
  else if hbasic : ∀ v ∈ valz, 0 ≤ v.votingPower ∧ v.validateBasic c then
    -- the check of `updateTotalVotingPower`
    if htotal : (valz.map Validator.votingPower).sum ≤ maxTotalVotingPower then
      .ok {
        validators := valz.insertionSort byVotingPower
        proposer := findPreviousProposer valz
        power_nonneg := fun v hv => (hbasic v ((List.perm_insertionSort _ _).mem_iff.mp hv)).1
        total_le := ((List.perm_insertionSort _ _).map _).sum_eq.trans_le htotal }
    else .error .panic
  else .error .invalid

-- ==== the pointer

/-- What `Proposer` points to: the entry of a validator, or a validator that
is no entry any more. -/
inductive Pointer where
  | nil
  | entry (address : Bytes)
  | former (v : Validator)

namespace ValidatorSet

def deref (vals : ValidatorSet) : Pointer → Option Validator
  | .nil => none
  | .entry address => vals.validators.find? fun v => v.address = address
  | .former v => some v

/-- The pointer after an update of `vals`: the list has copies of the
changes, and what was there for their addresses has left it. -/
def repoint (vals : ValidatorSet) (changes : List Validator) : Pointer → Pointer
  | .entry address =>
    if changes.any fun v => v.address = address then (vals.deref (.entry address)).elim .nil .former
    else .entry address
  | p => p

/-- The pointer that an increment sets. -/
def chosen (vals : ValidatorSet) : Pointer := vals.proposer.elim .nil fun v => .entry v.address

/-- The sets that the functions make, with their pointers. -/
inductive Held : ValidatorSet → Pointer → Prop
  | new {valz vals} (h : newValidatorSet valz = some vals) : Held vals vals.chosen
  | update {vals vals' p changes} (hvals : Held vals p)
      (h : vals.updateWithChangeSet changes true = .ok vals') : Held vals' (vals.repoint changes p)
  | increment {vals vals' p times} (hvals : Held vals p)
      (h : vals.incrementProposerPriority times = some vals') : Held vals' vals'.chosen

/-- The set that a reader of the fields sees. -/
def seen (vals : ValidatorSet) (p : Pointer) : ReceivedSet :=
  { vals.toReceivedSet with proposer := vals.deref p }

end ValidatorSet

-- ==== the guess

/-- `v` comes before `w` by a key, on a tie by the smaller address. -/
def Leads (key : Validator → Int) (v w : Validator) : Prop :=
  key w < key v ∨ (key v = key w ∧ v.address ≤ w.address)

lemma Leads.trans {key : Validator → Int} {u v w : Validator}
    (h : Leads key u v) (h' : Leads key v w) : Leads key u w := by
  rcases h with h | ⟨h, hle⟩ <;> rcases h' with h' | ⟨h', hle'⟩
  · exact .inl (h'.trans h)
  · exact .inl (h' ▸ h)
  · exact .inl (h ▸ h')
  exact .inr ⟨h.trans h', Std.le_trans hle hle'⟩

instance : Std.Total byVotingPower where
  total v w := by
    rcases lt_trichotomy v.votingPower w.votingPower with h | h | h
    · exact .inr (.inl h)
    · rcases Std.Total.total (r := (· ≤ ·)) v.address w.address with hle | hle
      · exact .inl (.inr ⟨h, hle⟩)
      exact .inr (.inr ⟨h.symm, hle⟩)
    exact .inl (.inl h)

instance : IsTrans Validator byVotingPower where
  trans _ _ _ := @Leads.trans Validator.votingPower _ _ _

abbrev Ahead : Validator → Validator → Prop := Leads Validator.proposerPriority

lemma findPreviousProposer_spec {valz : List Validator} (h : valz ≠ []) :
    ∃ p ∈ valz, findPreviousProposer valz = some p
      ∧ ∀ v ∈ valz, Ahead v p := by
  have hrefl : ∀ v : Validator, Ahead v v := fun _ => .inr ⟨rfl, Std.le_refl _⟩
  have hpick : ∀ p v : Validator, ∀ pick,
      (if p = p.compareProposerPriority v then v else p) = pick →
      (pick = p ∨ pick = v) ∧ Ahead p pick ∧ Ahead v pick := by
    rintro p v _ rfl
    unfold Validator.compareProposerPriority
    split
    · next hlt =>
      rw [if_pos rfl]
      exact ⟨.inr rfl, .inl hlt, hrefl v⟩
    split
    · next hlt =>
      rw [if_neg fun heq => Int.lt_irrefl _ (heq ▸ hlt)]
      exact ⟨.inl rfl, hrefl p, .inl hlt⟩
    next hge hle =>
    have hprio : p.proposerPriority = v.proposerPriority := by omega
    split
    · next hlt =>
      rw [if_pos rfl]
      exact ⟨.inr rfl, .inr ⟨hprio, Std.le_of_lt hlt⟩, hrefl v⟩
    next hnot =>
    split
    · next heq =>
      rw [heq]
      exact ⟨.inl rfl, hrefl v, hrefl v⟩
    exact ⟨.inl rfl, hrefl p, .inr ⟨hprio.symm, Std.not_lt.mp hnot⟩⟩
  cases valz with
  | nil => exact absurd rfl h
  | cons v vs =>
    obtain ⟨hmem, hall⟩ := Lib.foldl_best (r := Ahead) hrefl Leads.trans
      (fun p v => hpick p v _ rfl) vs v
    exact ⟨_, hmem, List.foldl_hom some fun _ _ => rfl, hall⟩

-- ==== the order of a set

namespace ValidatorSet

variable {vals vals' : ValidatorSet}

def Ranked (vals : ValidatorSet) : Prop := vals.validators.Pairwise byVotingPower

section

variable (h : vals.Ranked)

include h

lemma Ranked.withPriorities (f : Validator → Int) :
    (vals.withPriorities f).Ranked :=
  List.pairwise_map.mpr h

lemma Ranked.rescalePriorities (diffMax : Int) :
    (vals.rescalePriorities diffMax).Ranked := by
  unfold ValidatorSet.rescalePriorities
  split
  · exact h
  dsimp only
  split
  · exact h.withPriorities _
  exact h

lemma Ranked.incrementTimes (n : Nat) :
    ∀ proposer, (vals.incrementTimes proposer n).Ranked := by
  induction n generalizing vals with
  | zero => exact fun _ => h
  | succ n ih =>
    refine fun _ => ih ?_ _
    split
    · exact h.withPriorities _
    exact (h.withPriorities _).withPriorities _

lemma Ranked.increment {times : Int}
    (hinc : vals.incrementProposerPriority times = some vals') :
    vals'.Ranked := by
  unfold incrementProposerPriority at hinc
  split at hinc
  · cases hinc
  cases hinc
  exact ((h.rescalePriorities _).withPriorities _).incrementTimes _ _

lemma Ranked.update {changes : List Validator} {allowDeletes : Bool}
    (hup : vals.updateWithChangeSet changes allowDeletes = .ok vals') :
    vals'.Ranked := by
  unfold updateWithChangeSet at hup
  split at hup
  · cases hup
    exact h
  split at hup
  · cases hup
  cases hup
  exact List.pairwise_insertionSort byVotingPower _

end

lemma Held.ranked {p : Pointer} (h : Held vals p) : vals.Ranked := by
  induction h with
  | new h =>
    unfold newValidatorSet at h
    split at h
    · cases h
    next hup =>
    have hempty : empty.Ranked := .nil
    have hranked := hempty.update hup
    split at h
    · cases h
      exact hranked
    exact hranked.increment h
  | update _ h ih => exact ih.update h
  | increment _ h ih => exact ih.increment h

-- ==== the rebuilt set

/-- Rebuilding a set from its validators gives the set again exactly when
there are some, each of them is valid and the proposer is one of them that
is behind all others. -/
theorem rebuild_iff (c : Crypto) {p : Pointer} (h : Held vals p) :
    validatorSetFromExistingValidators c vals.validators = .ok (vals.seen p)
      ↔ vals.validators ≠ [] ∧ (∀ v ∈ vals.validators, v.validateBasic c)
        ∧ ∃ v ∈ vals.validators, vals.deref p = some v
          ∧ ∀ w ∈ vals.validators, Ahead w v := by
  unfold validatorSetFromExistingValidators
  by_cases hne : vals.validators = []
  · simp [hne]
  by_cases hbasic : ∀ v ∈ vals.validators, v.validateBasic c
  · rw [if_neg hne, dif_pos fun v hv =>
      ⟨vals.power_nonneg v hv, hbasic v hv⟩, dif_pos vals.total_le]
    obtain ⟨q, hq, hfind, hlast⟩ := findPreviousProposer_spec hne
    simp only [h.ranked.insertionSort_eq, hfind, seen, Except.ok.injEq,
      ReceivedSet.mk.injEq, true_and]
    refine ⟨fun heq => ⟨hne, hbasic, q, hq, heq.symm, hlast⟩, ?_⟩
    rintro ⟨-, -, v, hv, hderef, hall⟩
    -- both are behind each other, so they have one address
    have haddress : q.address = v.address := by
      rcases hlast v hv with hlt | ⟨heq, hle⟩
      · rcases hall q hq with hlt' | ⟨heq', -⟩ <;> omega
      rcases hall q hq with hlt' | ⟨-, hle'⟩
      · omega
      exact Std.le_antisymm hle' hle
    rw [hderef, List.inj_on_of_nodup_map vals.addresses_nodup hq hv haddress]
  rw [if_neg hne, dif_neg fun hall => hbasic fun v hv => (hall v hv).2]
  exact iff_of_false (fun h => by cases h) fun h => hbasic h.2.1

def unequalPowers : List Validator := [⟨[1], [1], 1, 0⟩, ⟨[2], [2], 3, 0⟩]

lemma exists_of_parts (o : Option ValidatorSet) (valz : List Validator)
    (proposer : Option Validator)
    (h : (o.map fun vals => (vals.validators, vals.proposer))
      = some (valz, proposer)) :
    ∃ vals, o = some vals ∧ vals.validators = valz
      ∧ vals.proposer = proposer := by
  obtain ⟨vals, hvals, hparts⟩ := Option.map_eq_some_iff.mp h
  exact ⟨vals, hvals, Prod.mk.inj hparts⟩

theorem rebuild_of_unequal : ∃ vals, newValidatorSet unequalPowers = some vals
    ∧ validatorSetFromExistingValidators sampleCrypto vals.validators = .ok
    (vals.seen vals.chosen) := by
  obtain ⟨vals, hvals, hlist, hproposer⟩ := exists_of_parts (newValidatorSet unequalPowers)
    [⟨[2], [2], 3, -1⟩, ⟨[1], [1], 1, 1⟩] (some ⟨[2], [2], 3, -1⟩) (by decide +kernel)
  refine ⟨vals, hvals, (rebuild_iff sampleCrypto (.new hvals)).mpr ?_⟩
  unfold chosen deref Ahead Leads
  rw [hlist, hproposer]
  decide +kernel

/-- The strong validator proposes after the weak one, which it is still
ahead of: the rebuilt set has the weak one as its proposer. -/
theorem rebuild_differs :
    ∃ vals p, Held vals p
      ∧ ∃ rebuilt, validatorSetFromExistingValidators sampleCrypto
        vals.validators = .ok rebuilt
        ∧ (vals.deref p).map Validator.address = some [2]
        ∧ rebuilt.proposer.map Validator.address = some [1] := by
  obtain ⟨vals, hvals, hlist, hproposer⟩ :=
    exists_of_parts ((newValidatorSet unequalPowers).bind (·.incrementProposerPriority 2))
    [⟨[2], [2], 3, 1⟩, ⟨[1], [1], 1, -1⟩] (some ⟨[2], [2], 3, 1⟩) (by decide +kernel)
  obtain ⟨new, hnew, hinc⟩ := Option.bind_eq_some_iff.mp hvals
  refine ⟨vals, vals.chosen, .increment (.new hnew) hinc, ?_⟩
  unfold chosen deref
  rw [hlist, hproposer]
  exact ⟨_, rfl, by decide +kernel, by decide +kernel⟩

end ValidatorSet

end HetuEngine.Comet
