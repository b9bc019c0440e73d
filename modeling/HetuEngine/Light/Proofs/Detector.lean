/-
When the cross-check of the light client can be trusted.

`detectDivergence` takes as many messages from its channel as there are
witnesses. It returns `nil` exactly when none of them ends the loop and one
of them is `nil` (`detectDivergence_ok_iff`). If each witness sent one
message, that would be a sound check: a `nil` is a header that matched, and a
conflict that verifies ends the loop.

# Messages that stand for others

A witness with another header of the target height, under the primary's
proposer priorities, sends a conflict and then a `nil`. If its conflict does
not verify, it is an *echo*: it fills two of the places, one of them with
the `nil` of a header that matched, and some other message is not read. A
witness *halts* the loop if its first message does.

Counting the messages that can be read without ending the loop, one for each
witness, one more for each echo and none for those that halt
(`front_length`), shows when `nil` can be returned although no header
matched, or although a conflict verifies: if there is an echo, there are at
least as many as there are witnesses that halt, and there is another witness
whose message can be left unread.
-/
import HetuEngine.Light.Detector
import HetuEngine.Comet.ValidatorUpdates
import Mathlib.Order.Interval.Finset.Nat

namespace HetuEngine.Light

open Comet Lib

variable {π ε : Type}

-- ==== the loop

def Message.isNil : Message → Bool
  | .nil => true
  | _ => false

/-- The messages for which a witness is removed, if the loop goes on. -/
def Message.marks : Message → Bool
  | .conflictingHeaders _ => true
  | .badWitness _ => true
  | _ => false

/-- The loop goes on after the message. -/
def goesOn (handle : Nat → LightBlock → Handled) (index : Nat) (m : Message) : Bool :=
  (onMessage handle index m).isOk

section Loop

variable {handle : Nat → LightBlock → Handled}

@[simp] lemma goesOn_nil (index : Nat) : goesOn handle index .nil = true := rfl

@[simp] lemma goesOn_proposerPrioritiesDiverge (index : Nat)
    (got wanted : Bytes) :
    goesOn handle index (.proposerPrioritiesDiverge got wanted) = false := rfl

@[simp] lemma goesOn_err (index : Nat) (err : ProviderError) :
    goesOn handle index (.err err) = !err.isContext := by
  rw [goesOn, onMessage]
  cases err.isContext <;> rfl

lemma onMessage_of_goesOn {index : Nat} {m : Message}
    (h : goesOn handle index m = true) :
    onMessage handle index m = .ok (m.isNil, m.marks) := by
  unfold goesOn at h
  cases m with
  | nil => rfl
  | conflictingHeaders block =>
    rw [onMessage] at h ⊢
    cases hblock : handle index block with
    | dismissed => rfl
    | attack | panics => rw [hblock] at h; cases h
  | badWitness reason => rfl
  | proposerPrioritiesDiverge got wanted => cases h
  | err err =>
    rw [onMessage] at h ⊢
    split at h
    · cases h
    next hcontext =>
    rw [if_neg hcontext]
    rfl

/-- What the loop has at its end, and that no message ended it before. -/
lemma detectLoop_eq_ok_iff {reads : List (Nat × Message)}
    {headerMatched : Bool} {marked : List Nat} {result : Bool × List Nat} :
    detectLoop handle reads headerMatched marked = .ok result ↔
    (∀ x ∈ reads, goesOn handle x.1 x.2 = true)
      ∧ result = (headerMatched || reads.any fun x => x.2.isNil,
          marked ++ (reads.filter fun x => x.2.marks).map Prod.fst) := by
  induction reads generalizing headerMatched marked with
  | nil =>
    rw [List.any_nil, Bool.or_false, List.filter_nil, List.map_nil, List.append_nil]
    constructor
    · intro h
      exact ⟨fun x hx => absurd hx List.not_mem_nil, (Except.ok.inj h).symm⟩
    rintro ⟨-, rfl⟩
    rfl
  | cons x reads ih =>
    obtain ⟨index, m⟩ := x
    rw [detectLoop, List.forall_mem_cons]
    by_cases hgo : goesOn handle index m = true
    · rw [onMessage_of_goesOn hgo]
      simp only [ih, hgo, true_and]
      refine and_congr_right fun _ => ?_
      rw [Bool.or_assoc, List.filter_cons]
      cases m.marks with
      | false => exact Iff.rfl
      | true =>
        rw [if_pos rfl, List.append_assoc]
        exact Iff.rfl
    have herr : ∃ err, onMessage handle index m = .error err := by
      unfold goesOn at hgo
      cases hm : onMessage handle index m with
      | error err => exact ⟨err, rfl⟩
      | ok r => rw [hm] at hgo; exact absurd rfl hgo
    obtain ⟨err, herr⟩ := herr
    simp only [herr]
    constructor
    · intro h
      cases h
    intro h
    exact absurd h.1.1 hgo

end Loop

-- ==== the whole check

section Check

variable {world : World π ε} {client : Client π} {primaryRequests : Nat}
  {first second : LightBlock} {rest : List LightBlock}
  {reads : List (Nat × Message)}

/-- Among as many messages as there are witnesses, one of them a `nil`, too
few mark a witness to remove them all. -/
lemma removeWitnesses_of_nil {witnesses : List π}
    (hlength : reads.length = witnesses.length)
    (hnil : ∃ x ∈ reads, x.2.isNil = true) :
    ∃ left, removeWitnesses witnesses
      ((reads.filter fun x => x.2.marks).map Prod.fst) = some left := by
  obtain ⟨x, hx, hxnil⟩ := hnil
  have hmarks : x.2.marks = false := by
    cases hm : x.2 with
    | nil => rfl
    | _ => rw [hm] at hxnil; cases hxnil
  have hlt : (reads.filter fun x => x.2.marks).length < reads.length :=
    List.length_filter_lt_length_iff_exists.mpr ⟨x, hx, by rw [hmarks]; exact Bool.false_ne_true⟩
  unfold removeWitnesses
  rw [if_neg (by rw [List.length_map]; omega)]
  exact ⟨_, rfl⟩

/-- `detectDivergence` returns `nil` exactly when no message it reads ends
the loop and one of them is `nil`. -/
lemma detectDivergence_ok_iff
    (hlength : reads.length = client.witnesses.length) :
    (detectDivergence world client primaryRequests (first :: second :: rest)
      reads).1 = .ok ()
      ↔ (∀ x ∈ reads, goesOn (handle world client primaryRequests
        ((second :: rest).getLast (List.cons_ne_nil _ _)) first
        (second :: rest)) x.1 x.2 = true)
        ∧ ∃ x ∈ reads, x.2.isNil = true := by
  rw [detectDivergence]
  split
  next hnone =>
    -- without witnesses nothing is read
    rw [hnone] at hlength
    rw [List.length_eq_zero_iff.mp hlength]
    constructor
    · intro h
      cases h
    rintro ⟨-, x, hx, -⟩
    cases hx
  next hsome =>
  split
  next err hloop =>
    constructor
    · intro h
      cases h
    rintro ⟨hgo, -⟩
    rw [detectLoop_eq_ok_iff.mpr ⟨hgo, rfl⟩] at hloop
    cases hloop
  next matched marked hloop =>
  obtain ⟨hgo, hresult⟩ := detectLoop_eq_ok_iff.mp hloop
  obtain ⟨rfl, rfl⟩ := Prod.mk.inj hresult
  rw [Bool.false_or, List.nil_append]
  constructor
  · intro h
    refine ⟨hgo, ?_⟩
    rw [← List.any_eq_true]
    by_contra hany
    rw [if_neg hany] at h
    split at h
    · cases h
    cases h
  rintro ⟨-, hnil⟩
  obtain ⟨left, hleft⟩ := removeWitnesses_of_nil hlength hnil
  rw [hleft, if_pos (List.any_eq_true.mpr hnil)]

end Check

-- ==== what a witness supplies

section Witness

variable (world : World π ε) (primaryTrace : List LightBlock) (l : LightBlock)

/-- The witness supplied a block of the target height with the header hash
of the primary's. -/
def Matches (witness : π) : Prop :=
  ∃ block, (fetch world l witness).1 = .block block ∧ block.height = l.height
    ∧ world.hash block.header = world.hash l.header

/-- The witness supplied the block, and it conflicts with the primary's. -/
def Conflicts (witness : π) (block : LightBlock) : Prop :=
  (fetch world l witness).1 = .message (.conflictingHeaders block)
    ∨ (fetch world l witness).1 = .block block ∧ world.hash l.header ≠ world.hash block.header

/-- The block of the witness verifies from a block of the primary's trace:
its examination against the trace succeeds. -/
def verifies (witness : π) (block : LightBlock) : Bool :=
  match primaryTrace with
  | [] => false
  | first :: rest =>
    (examineConflictingHeaderAgainstTrace world first rest block witness
      (fetch world l witness).2).isOk

/-- What a cross-check that returns `nil` is to show: the header of some
witness matched, and no conflicting block verifies. -/
def CrossChecked (witnesses : List π) : Prop :=
  (∃ witness ∈ witnesses, Matches world l witness) ∧ ∀ witness ∈ witnesses,
    ∀ block, Conflicts world l witness block → verifies world primaryTrace l witness block = false

/-- The proposer priorities of two blocks have the same hash. -/
def samePriorities (block : LightBlock) : Bool :=
  l.validatorSet.proposerPriorityHash world.sum = block.validatorSet.proposerPriorityHash world.sum

/-- The witness has another header of the target height, under the same
proposer priorities, and cannot back it. -/
def echoes (witness : π) : Bool :=
  match (fetch world l witness).1 with
  | .block block =>
    world.hash l.header ≠ world.hash block.header && samePriorities world l block
      && !verifies world primaryTrace l witness block
  | .message _ => false

/-- The first thing the witness says ends the cross-check: a conflict that
verifies, the same header under other proposer priorities, or an error of
the context. -/
def halts (witness : π) : Bool :=
  match (fetch world l witness).1 with
  | .block block =>
    if world.hash l.header ≠ world.hash block.header then
      verifies world primaryTrace l witness block
    else !samePriorities world l block
  | .message (.conflictingHeaders block) => verifies world primaryTrace l witness block
  | .message (.proposerPrioritiesDiverge _ _) => true
  | .message (.err err) => err.isContext
  | .message _ => false

end Witness

-- ==== what can be read of a witness

variable {world : World π ε} {client : Client π} {primaryRequests : Nat}
  {l first block : LightBlock} {rest : List LightBlock}
  {reads : List (Nat × Message)} {index : Nat} {witness : π}

/-- A conflict ends the loop exactly when it verifies. -/
lemma goesOn_conflict (hwitness : client.witnesses[index]? = some witness) :
    goesOn (handle world client primaryRequests l first rest) index
      (.conflictingHeaders block)
      = !verifies world (first :: rest) l witness block := by
  have hhandle : handle world client primaryRequests l first rest index block
      = handleConflictingHeaders world client.primary primaryRequests first
          rest block witness (fetch world l witness).2 := by
    unfold handle
    rw [hwitness]
  simp only [goesOn, onMessage, verifies, hhandle, handleConflictingHeaders]
  cases hexamine : examineConflictingHeaderAgainstTrace world first rest block
      witness (fetch world l witness).2 with
  | error err => rfl
  | ok result =>
    obtain ⟨trace, primaryBlock⟩ := result
    cases trace with
    | nil => rfl
    | cons common trace =>
      dsimp only
      cases examineConflictingHeaderAgainstTrace world common trace
          primaryBlock client.primary primaryRequests with
      | error err => rfl
      | ok result =>
        obtain ⟨trace, witnessBlock⟩ := result
        cases trace <;> rfl

/-- Of each witness one message can be read without ending the loop, of an
echo two, and none of one that halts it. -/
lemma front_length (hwitness : client.witnesses[index]? = some witness) :
    ((comparisons world l client.witnesses index).takeWhile
      (goesOn (handle world client primaryRequests l first rest) index)).length
      + (halts world (first :: rest) l witness).toNat
      = 1 + (echoes world (first :: rest) l witness).toNat := by
  unfold comparisons
  rw [hwitness]
  simp only [compareNewLightBlockWithWitness, halts, echoes]
  cases (fetch world l witness).1 with
  | block block =>
    simp only [compareHeaders, samePriorities]
    by_cases hhash : world.hash l.header = world.hash block.header
    · -- the header matches; the priorities may not
      by_cases hprio : l.validatorSet.proposerPriorityHash world.sum
          = block.validatorSet.proposerPriorityHash world.sum
      · simp [hhash, hprio, List.takeWhile_cons]
      simp [hhash, hprio]
    cases hverifies : verifies world (first :: rest) l witness block with
    | true => simp [hhash, goesOn_conflict hwitness, hverifies]
    | false =>
      by_cases hprio : l.validatorSet.proposerPriorityHash world.sum
          = block.validatorSet.proposerPriorityHash world.sum
      · simp [hhash, hprio, goesOn_conflict hwitness, hverifies, List.takeWhile_cons]
      simp [hhash, hprio, goesOn_conflict hwitness, hverifies]
  | message m =>
    cases m with
    | nil => rfl
    | conflictingHeaders block =>
      cases hverifies : verifies world (first :: rest) l witness block with
      | true | false => simp [goesOn_conflict hwitness, hverifies]
    | badWitness reason => rfl
    | proposerPrioritiesDiverge got wanted => rfl
    | err err =>
      cases hcontext : err.isContext with
      | true | false => simp [hcontext]

lemma fetch_ne_nil (witness : π) :
    (fetch world l witness).1 ≠ .message .nil := by
  intro h
  unfold fetch at h
  repeat' split at h
  all_goals cases h

lemma getTargetBlockOrLatest_height {height : Int} {request requests : Nat}
    (hheight : height ≠ 0)
    (h : getTargetBlockOrLatest world height witness request
      = (.ok (true, block), requests)) :
    block.height = height := by
  unfold getTargetBlockOrLatest at h
  split at h
  · cases h
  next latest hlatest =>
  split at h
  next hsame =>
    cases h
    exact hsame
  next =>
  split at h
  · split at h
    · cases h
    next block' hblock =>
    cases h
    exact world.lightBlock_height witness _ height _ hheight hblock
  cases h

lemma fetch_height (hheight : l.height ≠ 0)
    (h : (fetch world l witness).1 = .block block) :
    block.height = l.height := by
  unfold fetch at h
  split at h
  next b hb =>
    cases h
    exact world.lightBlock_height witness 0 _ _ hheight hb
  next => cases h
  next => cases h
  next => cases h
  next => cases h
  next =>
    split at h
    · cases h
    next b requests hb =>
      cases h
      exact getTargetBlockOrLatest_height hheight hb
    next latest requests hlatest =>
    split at h
    · cases h
    split at h
    · split at h
      · cases h
      cases h
    next b _ hb =>
      cases h
      exact getTargetBlockOrLatest_height hheight hb
    · split at h
      · cases h
      cases h
  next => cases h

/-- An echo sends its conflict and then a `nil`, and the loop goes on after
both. -/
lemma front_of_echoes (primaryRequests : Nat)
    (hwitness : client.witnesses[index]? = some witness)
    (h : echoes world (first :: rest) l witness = true) :
    ∃ block, comparisons world l client.witnesses index
      = [.conflictingHeaders block, .nil]
      ∧ (comparisons world l client.witnesses index).takeWhile
        (goesOn (handle world client primaryRequests l first rest) index)
        = [.conflictingHeaders block, .nil] := by
  unfold echoes at h
  unfold comparisons
  rw [hwitness]
  simp only [compareNewLightBlockWithWitness]
  cases hblock : (fetch world l witness).1 with
  | message m =>
    rw [hblock] at h
    cases h
  | block block =>
    rw [hblock] at h
    simp only [Bool.and_eq_true, decide_eq_true_eq, Bool.not_eq_true',
      samePriorities] at h
    obtain ⟨⟨hhash, hprio⟩, hverifies⟩ := h
    have hqueue : compareHeaders world l block
        = [.conflictingHeaders block, .nil] := by
      simp [compareHeaders, hhash, hprio]
    have hgo : goesOn (handle world client primaryRequests l first rest)
        index (.conflictingHeaders block) = true := by
      rw [goesOn_conflict hwitness, hverifies]
      rfl
    refine ⟨block, hqueue, ?_⟩
    simp [hqueue, hgo]

/-- If a `nil` can be read of a witness that is no echo, its header
matched. -/
lemma matches_of_nil_front (hheight : l.height ≠ 0)
    (hwitness : client.witnesses[index]? = some witness)
    (hecho : echoes world (first :: rest) l witness = false)
    (h : .nil ∈ (comparisons world l client.witnesses index).takeWhile
      (goesOn (handle world client primaryRequests l first rest) index)) :
    Matches world l witness := by
  unfold comparisons at h
  rw [hwitness] at h
  simp only [compareNewLightBlockWithWitness] at h
  cases hfetch : (fetch world l witness).1 with
  | message m =>
    rw [hfetch] at h
    have hm := (List.takeWhile_subset _) h
    rw [← List.mem_singleton.mp hm] at hfetch
    exact absurd hfetch (fetch_ne_nil witness)
  | block block =>
    refine ⟨block, hfetch, fetch_height hheight hfetch, ?_⟩
    by_contra hhash
    rw [hfetch] at h
    have hhash' : world.hash l.header ≠ world.hash block.header := fun heq => hhash heq.symm
    simp only [compareHeaders, if_pos hhash', List.cons_append,
      List.nil_append, List.takeWhile_cons, goesOn_conflict hwitness] at h
    split at h
    next hverifies =>
      -- the conflict does not verify: then the priorities differ, and the
      -- message that says so ends the loop before the `nil`
      have hprio : ¬ l.validatorSet.proposerPriorityHash world.sum
          = block.validatorSet.proposerPriorityHash world.sum := by
        intro hprio
        rw [echoes, hfetch] at hecho
        simp [samePriorities, hprio, hhash', hverifies] at hecho
      simp [hprio] at h
    next => cases h

lemma halts_of_conflict (hconflict : Conflicts world l witness block)
    (h : verifies world (first :: rest) l witness block = true) :
    halts world (first :: rest) l witness = true := by
  unfold halts
  rcases hconflict with hfetch | ⟨hfetch, hhash⟩
  · rw [hfetch]
    exact h
  rw [hfetch]
  simp only [if_pos hhash]
  exact h

-- ==== the count

/-- What can be read of all witnesses, from what can be read of each. -/
lemma sum_fronts {witnesses : List π} {p q : π → Bool} {front : Nat → Nat}
    (h : ∀ i w, witnesses[i]? = some w →
      front i + (p w).toNat = 1 + (q w).toNat) :
    ∑ i ∈ Finset.range witnesses.length, front i + witnesses.countP p
      = witnesses.length + witnesses.countP q := by
  induction witnesses generalizing front with
  | nil => rfl
  | cons w witnesses ih =>
    have hrest := @ih (fun i => front (i + 1)) fun i w hw => h (i + 1) w hw
    have hhead := h 0 w rfl
    rw [List.length_cons, Finset.sum_range_succ', List.countP_cons, List.countP_cons]
    cases hp : p w <;> cases hq : q w <;> rw [hp, hq] at hhead <;>
      simp only [Bool.toNat_true, Bool.toNat_false] at hhead <;>
      simp only [if_true, Bool.false_eq_true, if_false] <;> omega

/-- How many messages can be read without ending the loop. -/
lemma sum_comparisons (world : World π ε) (client : Client π)
    (primaryRequests : Nat) (l first : LightBlock) (rest : List LightBlock) :
    ∑ i
      ∈ Finset.range client.witnesses.length, ((comparisons world l
        client.witnesses i).takeWhile
        (goesOn (handle world client primaryRequests l first rest) i)).length
        + client.witnesses.countP (halts world (first :: rest) l)
      = client.witnesses.length
        + client.witnesses.countP (echoes world (first :: rest) l) :=
  sum_fronts fun _ _ hwitness => front_length hwitness

lemma comparisons_of_notMem {index : Nat}
    (h : index ∉ Finset.range client.witnesses.length) :
    comparisons world l client.witnesses index = [] := by
  rw [Finset.mem_range, Nat.not_lt] at h
  unfold comparisons
  rw [List.getElem?_eq_none h]

section

variable (hreads : FanIn (comparisons world l client.witnesses) reads)
    (hlength : reads.length = client.witnesses.length)

include hreads hlength

/-- If as many messages as witnesses are read and none ends the loop, the
echoes are at least as many as the witnesses that halt it. -/
lemma halts_le_echoes
    (hgo : ∀ x ∈ reads, goesOn
      (handle world client primaryRequests l first rest) x.1 x.2 = true) :
    client.witnesses.countP (halts world (first :: rest) l)
      ≤ client.witnesses.countP (echoes world (first :: rest) l) := by
  have hle := hreads.length_le _ (Finset.range client.witnesses.length) hgo
    fun _ hi => comparisons_of_notMem hi
  have hsum := sum_comparisons world client primaryRequests l first rest
  omega

lemma crossChecked_of_no_echoes (hheight : l.height ≠ 0)
    (hgo : ∀ x ∈ reads, goesOn
      (handle world client primaryRequests l first rest) x.1 x.2 = true)
    (hnil : ∃ x ∈ reads, x.2.isNil = true)
    (hecho : client.witnesses.countP (echoes world (first :: rest) l) = 0) :
    CrossChecked world (first :: rest) l client.witnesses := by
  have hhalts := halts_le_echoes hreads hlength hgo
  rw [hecho, Nat.le_zero] at hhalts
  rw [List.countP_eq_zero] at hecho hhalts
  constructor
  · obtain ⟨⟨i, m⟩, hx, hm⟩ := hnil
    obtain rfl : m = .nil := by
      cases m with
      | nil => rfl
      | _ => cases hm
    have hfront := hreads.mem_front _ hgo hx
    cases hwitness : client.witnesses[i]? with
    | none =>
      rw [comparisons, hwitness] at hfront
      cases hfront
    | some witness =>
      have hmem := List.mem_of_getElem? hwitness
      have hno : echoes world (first :: rest) l witness = false := by
        rw [← Bool.not_eq_true]
        exact hecho witness hmem
      exact ⟨witness, hmem, matches_of_nil_front hheight hwitness hno hfront⟩
  intro witness hmem block hconflict
  rw [← Bool.not_eq_true]
  intro hverifies
  exact hhalts witness hmem (halts_of_conflict hconflict hverifies)

/-- One message read, a `nil`: its sender is no echo. -/
lemma no_echoes_of_single (hnil : ∃ x ∈ reads, x.2.isNil = true)
    (hone : client.witnesses.length < 2) :
    client.witnesses.countP (echoes world (first :: rest) l) = 0 := by
  obtain ⟨x, hx, hm⟩ := hnil
  have hpos := List.length_pos_of_mem hx
  obtain ⟨witness, hwitnesses⟩ :=
    List.length_eq_one_iff.mp (show client.witnesses.length = 1 by omega)
  obtain ⟨y, rfl⟩ := List.length_eq_one_iff.mp (show reads.length = 1 by omega)
  obtain rfl := List.mem_singleton.mp hx
  rw [List.countP_eq_zero]
  intro w hw hecho
  cases hreads with
  | cons i m tail hfront hrest =>
    have hi : i = 0 := by
      by_contra hne
      have : i ∉ Finset.range client.witnesses.length := by
        rw [Finset.mem_range]
        omega
      rw [comparisons_of_notMem this] at hfront
      cases hfront
    have hsome : client.witnesses[i]? = some w := by
      rw [hwitnesses] at hw ⊢
      rw [hi, List.mem_singleton.mp hw]
      rfl
    obtain ⟨block, hqueue, -⟩ := front_of_echoes 0 hsome hecho
    rw [hqueue] at hfront
    cases hfront
    cases hm

end

/-- With an echo, no more witnesses that halt than echoes, and another
witness, there is an order in which the loop reads a `nil` and goes on to
its end. -/
lemma exists_reads (primaryRequests : Nat)
    (htwo : 2 ≤ client.witnesses.length)
    (hecho : 1 ≤ client.witnesses.countP (echoes world (first :: rest) l))
    (hhalts : client.witnesses.countP (halts world (first :: rest) l)
      ≤ client.witnesses.countP (echoes world (first :: rest) l)) :
    ∃ reads, FanIn (comparisons world l client.witnesses) reads
      ∧ reads.length = client.witnesses.length
      ∧ (∀ x ∈ reads, goesOn (handle world client primaryRequests l first rest)
        x.1 x.2 = true)
      ∧ ∃ x ∈ reads, x.2.isNil = true := by
  obtain ⟨witness, hmem, hw⟩ := List.countP_pos_iff.mp hecho
  obtain ⟨i, hi, hget⟩ := List.mem_iff_getElem.mp hmem
  have hwitness : client.witnesses[i]? = some witness := by rw [List.getElem?_eq_getElem hi, hget]
  obtain ⟨block, -, hfront⟩ := front_of_echoes primaryRequests hwitness hw
  -- the echo first, then the others
  obtain ⟨senders, hsenders⟩ : ∃ senders, senders
      = i :: (List.range client.witnesses.length).erase i := ⟨_, rfl⟩
  have hperm : (List.range client.witnesses.length).Perm senders := by
    rw [hsenders]
    exact List.perm_cons_erase (List.mem_range.mpr hi)
  have hnodup : senders.Nodup := hperm.nodup_iff.mp List.nodup_range
  obtain ⟨all, hall⟩ : ∃ all, all = fronts
      (goesOn (handle world client primaryRequests l first rest))
      (comparisons world l client.witnesses) senders := ⟨_, rfl⟩
  have hstart : ∃ tail, all = (i, .conflictingHeaders block) :: (i, .nil) :: tail := by
    rw [hall, hsenders, fronts, List.flatMap_cons, hfront]
    exact ⟨_, rfl⟩
  have hlong : client.witnesses.length ≤ all.length := by
    rw [hall, length_fronts _ _ _ hnodup, ← List.toFinset_eq_of_perm _ _ hperm, List.toFinset_range]
    have hsum := sum_comparisons world client primaryRequests l first rest
    omega
  refine ⟨all.take client.witnesses.length, ?_, ?_, ?_, ?_⟩
  · rw [hall]
    exact (fanIn_fronts _ _ _ hnodup).take _
  · rw [List.length_take]
    omega
  · intro x hx
    have hx := List.mem_of_mem_take hx
    rw [hall] at hx
    exact kind_of_mem_fronts hx
  obtain ⟨tail, htail⟩ := hstart
  obtain ⟨k, hk⟩ : ∃ k, client.witnesses.length = k + 2 := ⟨client.witnesses.length - 2, by omega⟩
  rw [htail, hk]
  exact ⟨(i, .nil), List.mem_cons_of_mem _ (List.mem_cons_self ..), rfl⟩

def sampleBlock (height : Int) (appHash : Bytes) : LightBlock where
  header := {
    version := ⟨11, 0⟩, chainID := "chain", height := height, time := 0
    lastBlockID := BlockID.zero, lastCommitHash := [], dataHash := []
    validatorsHash := [], nextValidatorsHash := [], consensusHash := []
    appHash := appHash, lastResultsHash := [], evidenceHash := []
    proposerAddress := [] }
  commit := ⟨height, 0, BlockID.zero, []⟩
  validatorSet := ValidatorSet.empty

/-- Witnesses that have the primary's blocks, but for height 2: witness `w`
has the block with application hash `[w]`. What witness 0 has does not
verify. -/
def sampleWorld : World Nat Unit where
  hash := Header.appHash
  sum := id
  lightBlock witness _ height :=
    .ok (sampleBlock height (if height = 2 then [UInt8.ofNat witness] else [9]))
  lightBlock_height := by
    intro provider request height block _ h
    cases h
    rfl
  verifySkipping source request trusted new :=
    if source = 0 then .error () else .ok ([trusted, new], request)

/-- The cross-check is sound, for every order in which the messages arrive,
exactly if what it is to show is the case anyway, or there are fewer than
two witnesses (or blocks in the trace), or there is no echo, or fewer echoes
than witnesses that halt the check. -/
theorem cross_check_sound_iff (world : World π ε) (client : Client π)
    (primaryRequests : Nat) (primaryTrace : List LightBlock)
    (hheight : ∀ block ∈ primaryTrace, 0 < block.height) :
    (∀ l, primaryTrace.getLast? = some l →
      ∀ reads, FanIn (comparisons world l client.witnesses) reads →
        reads.length = client.witnesses.length →
        (detectDivergence world client primaryRequests primaryTrace
          reads).1 = .ok () →
        CrossChecked world primaryTrace l client.witnesses)
      ↔ ∀ l, primaryTrace.getLast? = some l →
        primaryTrace.length < 2
          ∨ CrossChecked world primaryTrace l client.witnesses
          ∨ client.witnesses.length < 2
          ∨ client.witnesses.countP (echoes world primaryTrace l)
            < max 1
              (client.witnesses.countP (halts world primaryTrace l)) := by
  match primaryTrace, hheight with
  | [], _ => exact ⟨fun _ l hl => (nomatch hl), fun _ l hl => (nomatch hl)⟩
  | [only], _ =>
    refine ⟨fun _ l _ => .inl Nat.one_lt_two, fun _ l _ reads _ _ hok => ?_⟩
    cases hok
  | first :: second :: rest, hheight =>
    refine forall₂_congr fun l hl => ?_
    have hlast : (second :: rest).getLast (List.cons_ne_nil _ _) = l := by exact Option.some.inj hl
    have hzero : l.height ≠ 0 := (hheight l (List.mem_of_getLast? hl)).ne'
    constructor
    · intro hsound
      by_contra hcond
      simp only [not_or, Nat.not_lt, max_le_iff] at hcond
      obtain ⟨-, hunchecked, htwo, hecho, hhalts⟩ := hcond
      obtain ⟨reads, hreads, hlength, hgo, hnil⟩ := exists_reads primaryRequests htwo hecho hhalts
      refine hunchecked (hsound reads hreads hlength ?_)
      rw [detectDivergence_ok_iff hlength, hlast]
      exact ⟨hgo, hnil⟩
    intro hcond reads hreads hlength hok
    rw [detectDivergence_ok_iff hlength, hlast] at hok
    obtain ⟨hgo, hnil⟩ := hok
    have hle := halts_le_echoes hreads hlength hgo
    rcases hcond with hshort | hchecked | hone | hfew
    · simp only [List.length_cons] at hshort
      omega
    · exact hchecked
    · exact crossChecked_of_no_echoes hreads hlength hzero hgo hnil
        (no_echoes_of_single hreads hlength hnil hone)
    exact crossChecked_of_no_echoes hreads hlength hzero hgo hnil (by omega)

/-- A witness that has the primary's header, and one with a conflict that
verifies: no echo. -/
theorem cross_check_without_echo :
    (∀ block ∈ [sampleBlock 1 [9], sampleBlock 2 [1]], 0 < block.height)
      ∧ ∀ l, [sampleBlock 1 [9], sampleBlock 2 [1]].getLast? = some l →
        ∀ reads, FanIn (comparisons sampleWorld l [1, 2]) reads →
          reads.length = [1, 2].length →
          (detectDivergence sampleWorld ⟨0, [1, 2]⟩ 0
            [sampleBlock 1 [9], sampleBlock 2 [1]] reads).1 = .ok () →
          CrossChecked sampleWorld [sampleBlock 1 [9], sampleBlock 2 [1]] l
            [1, 2] := by
  have hheight : ∀ block ∈ [sampleBlock 1 [9], sampleBlock 2 [1]], 0 < block.height := by
    intro block hblock
    rcases List.mem_pair.mp hblock with rfl | rfl
    · decide
    decide
  refine ⟨hheight, (cross_check_sound_iff sampleWorld ⟨0, [1, 2]⟩ 0
    [sampleBlock 1 [9], sampleBlock 2 [1]] hheight).mpr ?_⟩
  intro l hl
  cases hl
  exact .inr (.inr (.inr (by decide)))

/-- Neither witness has the primary's header, and what witness 1 has
verifies from the primary's trace; but the two messages of witness 0 come
first, and the check returns `nil`. -/
theorem cross_check_misses_attack :
    FanIn (comparisons sampleWorld (sampleBlock 2 [9]) [0, 1])
      [(0, .conflictingHeaders (sampleBlock 2 [0])), (0, .nil)]
      ∧ (detectDivergence sampleWorld ⟨2, [0, 1]⟩ 0
        [sampleBlock 1 [9], sampleBlock 2 [9]]
        [(0, .conflictingHeaders (sampleBlock 2 [0])), (0, .nil)]).1 = .ok ()
      ∧ (∀ witness ∈ [0, 1], ¬ Matches sampleWorld (sampleBlock 2 [9]) witness)
      ∧ Conflicts sampleWorld (sampleBlock 2 [9]) 1 (sampleBlock 2 [1])
      ∧ verifies sampleWorld [sampleBlock 1 [9], sampleBlock 2 [9]]
        (sampleBlock 2 [9]) 1 (sampleBlock 2 [1]) = true := by
  refine ⟨?_, rfl, ?_, .inr ⟨rfl, ?_⟩, rfl⟩
  · refine .cons 0 _ [.nil] rfl (.cons 0 _ [] ?_ .nil)
    exact Function.update_self ..
  · rintro witness hwitness ⟨block, hfetch, -, hhash⟩
    cases hfetch
    rcases List.mem_pair.mp hwitness with rfl | rfl
    · revert hhash
      decide
    revert hhash
    decide
  decide

end HetuEngine.Light
