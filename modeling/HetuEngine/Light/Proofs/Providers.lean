/-
The primary and the witnesses of a light client.

The cross-check is void once the primary is among the witnesses, so a client
that starts with distinct providers should keep the two apart.

# Why it is kept, and when it is not

Removing witnesses takes away exactly the ones whose indexes are given, as
long as no index is given twice (`removeWitnesses_spec`); the indexes come
from messages of different goroutines, so none is. A promoted witness is
among those removed in the same call. But the removal refuses to leave the
client without witnesses, and `findNewPrimary` has made the witness its
primary before it asks. With the old primary appended there is always one
left; when the primary is dropped there need not be, and then the new
primary stays among the witnesses (`findLoop_overlap`).

Hence the condition `spared`: when the primary is dropped, there is a
witness that is neither promoted nor found bad before the promotion.
-/
import HetuEngine.Light.Proofs.Detector
import HetuEngine.Lib.Along

namespace HetuEngine.Light

open Comet Lib List Nat Prod

variable {π ε : Type}

-- ==== removal of witnesses

lemma length_replaceByLast (witnesses : List π) (index : Nat) :
    (replaceByLast witnesses index).length = witnesses.length - 1 := by
  unfold replaceByLast
  split
  next h =>
    rw [getLast?_eq_none_iff.mp h]
    rfl
  next last h => rw [length_dropLast, length_set]

variable {witnesses : List π}

lemma replaceByLast_perm {index : Nat} (hindex : index < witnesses.length) :
    (replaceByLast witnesses index).Perm (witnesses.eraseIdx index) := by
  rcases eq_nil_or_concat' witnesses with rfl | ⟨front, last, rfl⟩
  · exact absurd hindex (not_lt_zero _)
  rw [length_append, length_singleton] at hindex
  have hset : replaceByLast (front ++ [last]) index
      = ((front ++ [last]).set index last).dropLast := by
    unfold replaceByLast
    rw [getLast?_concat]
  rw [hset]
  by_cases hfront : index < front.length
  · rw [set_append_left _ _ hfront, dropLast_concat, eraseIdx_append_of_lt_length hfront]
    exact (set_perm_cons_eraseIdx hfront last).trans (perm_append_singleton _ _).symm
  obtain rfl : index = front.length := by omega
  rw [set_append_right _ _ (Nat.le_refl _), Nat.sub_self, set_cons_zero, dropLast_concat,
    eraseIdx_append_of_length_le (Nat.le_refl _), Nat.sub_self, eraseIdx_cons_zero, append_nil]

/-- The witnesses in front of the removed one stay where they are. -/
lemma getElem?_replaceByLast {index j : Nat}
    (hindex : index < witnesses.length) (hj : j < index) :
    (replaceByLast witnesses index)[j]? = witnesses[j]? := by
  unfold replaceByLast
  split
  next => rfl
  next last h =>
  rw [getElem?_dropLast, length_set, if_pos (by omega), getElem?_set_ne (by omega)]

variable {indexes : List Nat}

/-- The loop of `removeWitnesses`, from the largest index down. -/
lemma foldl_replaceByLast (hdesc : indexes.Pairwise (· > ·))
    (hbound : ∀ i ∈ indexes, i < witnesses.length) (hnodup : witnesses.Nodup) :
    (indexes.foldl replaceByLast witnesses).Nodup
      ∧ ∀ w ∈ indexes.foldl replaceByLast witnesses, w ∈ witnesses
        ∧ ∀ i ∈ indexes, witnesses[i]? ≠ some w := by
  induction indexes generalizing witnesses with
  | nil => exact ⟨hnodup, fun w hw => ⟨hw, fun i hi => nomatch hi⟩⟩
  | cons index rest ih =>
    obtain ⟨hlater, hdesc⟩ := pairwise_cons.mp hdesc
    have hindex := hbound index (mem_cons_self ..)
    have hperm := replaceByLast_perm hindex
    have hnodup' : (replaceByLast witnesses index).Nodup :=
      hperm.nodup_iff.mpr (hnodup.sublist (eraseIdx_sublist ..))
    have hbound' : ∀ i ∈ rest, i < (replaceByLast witnesses index).length := by
      intro i hi
      have := hlater i hi
      rw [length_replaceByLast]
      omega
    obtain ⟨hfinal, hmem⟩ := ih hdesc hbound' hnodup'
    refine ⟨hfinal, fun w hw => ?_⟩
    obtain ⟨hw, hrest⟩ := hmem w hw
    rw [hperm.mem_iff] at hw
    refine ⟨mem_of_mem_eraseIdx hw, fun i hi => ?_⟩
    rcases List.mem_cons.mp hi with rfl | hi
    · -- the removed witness occurred once, so it is gone
      intro hsome
      obtain ⟨hlt, heq⟩ := List.getElem?_eq_some_iff.mp hsome
      have hcons := List.getElem_cons_eraseIdx_perm hlt
      have := (hcons.nodup_iff.mpr hnodup)
      rw [heq] at this
      exact (nodup_cons.mp this).1 hw
    rw [← getElem?_replaceByLast hindex (hlater i hi)]
    exact hrest i hi

/-- `removeWitnesses` for distinct indexes: what is left are witnesses that
were not to be removed. -/
lemma removeWitnesses_spec {left : List π} (hnodup : witnesses.Nodup)
    (hindexes : indexes.Nodup) (hbound : ∀ i ∈ indexes, i < witnesses.length)
    (h : removeWitnesses witnesses indexes = some left) :
    left.Nodup
      ∧ ∀ w ∈ left, w ∈ witnesses ∧ ∀ i ∈ indexes, witnesses[i]? ≠ some w := by
  unfold removeWitnesses at h
  split at h
  · cases h
  have hperm := perm_insertionSort (· ≤ ·) indexes
  have hsorted := pairwise_insertionSort (· ≤ ·) indexes
  have hdistinct : (indexes.insertionSort (· ≤ ·)).Nodup := hperm.nodup_iff.mpr hindexes
  have hdesc : (indexes.insertionSort (· ≤ ·)).reverse.Pairwise (· > ·) := by
    rw [pairwise_reverse]
    exact (hsorted.and hdistinct).imp fun h => lt_of_le_of_ne h.1 h.2
  have hbound' : ∀ i ∈ (indexes.insertionSort (· ≤ ·)).reverse, i < witnesses.length := by
    intro i hi
    exact hbound i (hperm.mem_iff.mp (mem_reverse.mp hi))
  obtain ⟨hleft, hmem⟩ := foldl_replaceByLast hdesc hbound' hnodup
  rw [Option.some.inj h] at hleft hmem
  refine ⟨hleft, fun w hw => ⟨(hmem w hw).1, fun i hi => ?_⟩⟩
  exact (hmem w hw).2 i (mem_reverse.mpr (hperm.mem_iff.mpr hi))

-- ==== distinct providers

def Client.Distinct (client : Client π) : Prop := (client.primary :: client.witnesses).Nodup

variable {client : Client π}

lemma Client.Distinct.remove (h : client.Distinct) {left : List π}
    (hindexes : indexes.Nodup)
    (hbound : ∀ i ∈ indexes, i < client.witnesses.length)
    (hleft : removeWitnesses client.witnesses indexes = some left) :
    (⟨client.primary, left⟩ : Client π).Distinct := by
  obtain ⟨hprimary, hnodup⟩ := nodup_cons.mp h
  obtain ⟨hleft, hmem⟩ := removeWitnesses_spec hnodup hindexes hbound hleft
  exact nodup_cons.mpr ⟨fun hw => hprimary (hmem _ hw).1, hleft⟩

-- ==== a new primary

/-- When the first good response comes in, the witnesses marked so far and
the one that sent it are not all there are. -/
def spared (witnesses : Nat) : List WitnessResponse → Nat → Prop
  | [], _ => True
  | (_, .ok _) :: _, marked => marked + 1 < witnesses
  | (_, .error err) :: rest, marked =>
    spared witnesses rest (if err.isBenign then marked else marked + 1)

instance spared.decidable (witnesses : Nat) :
    ∀ responses marked, Decidable (spared witnesses responses marked)
  | [], _ => instDecidableTrue
  | (_, .ok _) :: _, marked => inferInstanceAs (Decidable (marked + 1 < witnesses))
  | (_, .error err) :: rest, marked =>
    spared.decidable witnesses rest (if err.isBenign then marked else marked + 1)

/-- The indexes that `findNewPrimary` has marked and those of the responses
still to come: all different, and of witnesses. -/
structure Marks (client : Client π) (marked : List Nat)
    (responses : List WitnessResponse) : Prop where
  nodup : (marked ++ responses.map Prod.fst).Nodup
  bound : ∀ i ∈ marked ++ responses.map Prod.fst, i < client.witnesses.length

namespace Marks

variable {client : Client π} {marked : List Nat} {index : Nat}
  {answer : Except ProviderError LightBlock} {rest : List WitnessResponse}

lemma skip (h : Marks client marked ((index, answer) :: rest)) :
    Marks client marked rest := by
  have hsub : (marked ++ rest.map fst).Sublist
      (marked ++ ((index, answer) :: rest).map fst) :=
    (sublist_cons_self ..).append_left marked
  exact ⟨h.nodup.sublist hsub, fun i hi => h.bound i (hsub.subset hi)⟩

lemma mark (h : Marks client marked ((index, answer) :: rest)) :
    Marks client (marked ++ [index]) rest := by
  have heq : marked ++ [index] ++ rest.map fst
      = marked ++ ((index, answer) :: rest).map fst := by
    rw [append_assoc]
    rfl
  exact ⟨heq ▸ h.nodup, fun i hi => h.bound i (heq ▸ hi)⟩

variable {responses : List WitnessResponse}

section

variable (h : Marks client marked responses)

include h

lemma marked_nodup : marked.Nodup := h.nodup.sublist (sublist_append_left ..)

lemma marked_bound : ∀ i ∈ marked, i < client.witnesses.length :=
  fun i hi => h.bound i (mem_append_left _ hi)

lemma length_le : marked.length ≤ client.witnesses.length := by
  have hsub : marked ⊆ range client.witnesses.length :=
    fun i hi => mem_range.mpr (h.marked_bound i hi)
  have hle := (h.marked_nodup.subperm hsub).length_le
  rwa [length_range] at hle

end

end Marks

/-- The loop of `findNewPrimary` keeps the providers distinct if the primary
stays as a witness or a witness is spared. -/
lemma findLoop_distinct (hdistinct : client.Distinct) (remove : Bool)
    (responses : List WitnessResponse) (marked : List Nat)
    (lastError : ProviderError) (hmarks : Marks client marked responses)
    (hspared : remove = true →
      spared client.witnesses.length responses marked.length) :
    (findLoop client remove responses marked lastError).2.Distinct := by
  induction responses generalizing marked lastError with
  | nil =>
    unfold findLoop
    split
    next => exact hdistinct
    next witnesses h => exact hdistinct.remove hmarks.marked_nodup hmarks.marked_bound h
  | cons response rest ih =>
    obtain ⟨index, answer⟩ := response
    cases answer with
    | error err =>
      unfold findLoop
      split
      next hbenign =>
        refine ih marked err hmarks.skip fun hremove => ?_
        have hs := hspared hremove
        rw [spared, if_pos hbenign] at hs
        exact hs
      next hbenign =>
      refine ih (marked ++ [index]) err hmarks.mark fun hremove => ?_
      have hs := hspared hremove
      rw [spared, if_neg hbenign] at hs
      rw [length_append]
      exact hs
    | ok lb =>
      obtain ⟨hprimary, hnodup⟩ := nodup_cons.mp hdistinct
      have hmarked := hmarks.mark
      have hindex : index < client.witnesses.length :=
        hmarked.marked_bound index (mem_append_right _ (mem_singleton_self _))
      have hcount := hmarked.length_le
      rw [length_append, length_singleton] at hcount
      -- the list from which the marked witnesses are removed
      obtain ⟨witnesses, hwitnesses⟩ : ∃ witnesses, witnesses = if remove then client.witnesses
            else client.witnesses ++ [client.primary] := ⟨_, rfl⟩
      have hall : witnesses.Nodup ∧ client.witnesses.length ≤ witnesses.length
          ∧ witnesses[index]? = client.witnesses[index]?
          ∧ marked.length + 1 < witnesses.length := by
        cases remove with
        | true =>
          obtain rfl : witnesses = client.witnesses := hwitnesses
          have hs := hspared rfl
          exact ⟨hnodup, le_refl _, rfl, hs⟩
        | false =>
          obtain rfl : witnesses = client.witnesses ++ [client.primary] := hwitnesses
          rw [length_append, length_singleton]
          refine ⟨?_, by omega, ?_, by omega⟩
          · rw [← concat_eq_append]
            exact hnodup.concat hprimary
          exact getElem?_append_left hindex
      obtain ⟨hwnodup, hlong, hsame, hspare⟩ := hall
      obtain ⟨left, hleft⟩ : ∃ left, removeWitnesses witnesses (marked ++ [index]) = some left := by
        unfold removeWitnesses
        rw [if_neg (by
          rw [length_append, length_singleton]
          omega)]
        exact ⟨_, rfl⟩
      have hresult : (findLoop client remove ((index, .ok lb) :: rest)
          marked lastError).2 = ⟨(witnesses[index]?).getD client.primary, left⟩ := by
        unfold findLoop
        rw [← hwitnesses]
        simp only [hleft]
      rw [hresult]
      obtain ⟨hleftnodup, hmem⟩ := removeWitnesses_spec hwnodup hmarked.marked_nodup
        (fun i hi => lt_of_lt_of_le (hmarked.marked_bound i hi) hlong) hleft
      refine nodup_cons.mpr ⟨fun hw => ?_, hleftnodup⟩
      -- the promoted witness was at an index that was removed
      have hgone := (hmem _ hw).2 index (mem_append_right _ (mem_singleton_self _))
      rw [hsame, getElem?_eq_getElem hindex] at hgone
      exact hgone rfl

/-- If the primary is dropped and no witness is spared, the promoted witness
stays a witness. -/
lemma findLoop_overlap (responses : List WitnessResponse) (marked : List Nat)
    (lastError : ProviderError) (hmarks : Marks client marked responses)
    (hspared : ¬ spared client.witnesses.length responses marked.length) :
    (findLoop client true responses marked lastError).2.primary
      ∈ (findLoop client true responses marked lastError).2.witnesses := by
  induction responses generalizing marked lastError with
  | nil => exact absurd trivial hspared
  | cons response rest ih =>
    obtain ⟨index, answer⟩ := response
    cases answer with
    | error err =>
      rw [spared] at hspared
      unfold findLoop
      split
      next hbenign =>
        rw [if_pos hbenign] at hspared
        exact ih marked err hmarks.skip hspared
      next hbenign =>
      rw [if_neg hbenign] at hspared
      refine ih (marked ++ [index]) err hmarks.mark ?_
      rwa [length_append, length_singleton]
    | ok lb =>
      rw [spared] at hspared
      have hindex : index < client.witnesses.length :=
        hmarks.mark.marked_bound index (mem_append_right _ (mem_singleton_self _))
      have hnone : removeWitnesses client.witnesses (marked ++ [index]) = none := by
        unfold removeWitnesses
        rw [if_pos (by
          rw [length_append, length_singleton]
          omega)]
      have hresult : (findLoop client true ((index, .ok lb) :: rest) marked lastError).2
          = ⟨(client.witnesses[index]?).getD client.primary, client.witnesses⟩ := by
        unfold findLoop
        simp only [if_true, hnone]
      rw [hresult, getElem?_eq_getElem hindex]
      exact getElem_mem hindex

-- ==== the cross-checks

lemma marks_le_one (world : World π ε) (l : LightBlock) (witnesses : List π)
    (index : Nat) :
    ((comparisons world l witnesses index).filter
      Message.marks).length ≤ 1 := by
  unfold comparisons
  split
  next witness _ =>
    unfold compareNewLightBlockWithWitness
    split
    next block _ =>
      simp only [compareHeaders, filter_append, length_append]
      repeat' split
      all_goals simp [filter, Message.marks]
    next m _ => exact length_filter_le Message.marks [m]
  next => exact zero_le 1

section CrossChecks

variable {world : World π ε} {client : Client π} {l : LightBlock} {reads : List (Nat × Message)}

/-- The witnesses that a cross-check removes are different ones. -/
lemma removed_nodup
    (hreads : FanIn (comparisons world l client.witnesses) reads) :
    ((reads.filter fun x => x.2.marks).map fst).Nodup :=
  hreads.senders_nodup Message.marks (marks_le_one world l client.witnesses)

lemma removed_bound (hreads : FanIn (comparisons world l client.witnesses) reads) :
    ∀ i ∈ (reads.filter fun x => x.2.marks).map fst, i < client.witnesses.length := by
  intro i hi
  obtain ⟨⟨j, m⟩, hx, rfl⟩ := mem_map.mp hi
  have hmem := hreads.mem (mem_of_mem_filter hx)
  by_contra hlarge
  rw [comparisons_of_notMem (by rwa [Finset.mem_range])] at hmem
  cases hmem

lemma detectDivergence_distinct (hdistinct : client.Distinct)
    (primaryRequests : Nat) {primaryTrace : List LightBlock}
    (hreads : ∀ l, primaryTrace.getLast? = some l →
      FanIn (comparisons world l client.witnesses) reads) :
    (detectDivergence world client primaryRequests primaryTrace
      reads).2.Distinct := by
  match primaryTrace, hreads with
  | [], _ => exact hdistinct
  | [_], _ => exact hdistinct
  | first :: second :: rest, hreads =>
    have hreads := hreads _ (getLast?_eq_some_getLast (cons_ne_nil first (second :: rest)))
    rw [detectDivergence]
    split
    · exact hdistinct
    split
    · exact hdistinct
    next matched marked hloop =>
    obtain ⟨-, hresult⟩ := detectLoop_eq_ok_iff.mp hloop
    obtain ⟨-, rfl⟩ := mk.inj hresult
    split
    · exact hdistinct
    next left hleft =>
    exact hdistinct.remove (removed_nodup hreads) (removed_bound hreads) hleft

/-- The loop of `compareFirstLightBlockWithWitnesses` marks witnesses as the
other one does. -/
lemma compareFirstLoop_eq_ok {marked result : List Nat}
    (h : compareFirstLoop reads marked = .ok result) :
    result = marked ++ (reads.filter fun x => x.2.marks).map fst := by
  induction reads generalizing marked result with
  | nil => rw [← Except.ok.inj h, filter_nil, map_nil, append_nil]
  | cons x reads ih =>
    obtain ⟨index, m⟩ := x
    cases m with
    | nil => exact ih h
    | conflictingHeaders block => cases h
    | badWitness reason =>
      rw [ih h, append_assoc]
      rfl
    | proposerPrioritiesDiverge got wanted => cases h
    | err err =>
      rw [compareFirstLoop] at h
      split at h
      · cases h
      exact ih h

lemma compareFirst_distinct (hdistinct : client.Distinct)
    (hreads : FanIn (comparisons world l client.witnesses) reads) :
    (compareFirstLightBlockWithWitnesses client reads).2.Distinct := by
  unfold compareFirstLightBlockWithWitnesses
  split
  · exact hdistinct
  split
  · exact hdistinct
  next marked hloop =>
  have hmarked := compareFirstLoop_eq_ok hloop
  subst hmarked
  split
  · exact hdistinct
  next left hleft =>
  exact hdistinct.remove (removed_nodup hreads) (removed_bound hreads) hleft

end CrossChecks

-- ==== operations

/-- What the methods of the client do with the providers. Each operation has
a world of its own: providers may answer differently each time. -/
inductive Operation (π ε : Type) where
  /-- a block is requested from the primary -/
  | lightBlockFromPrimary (world : World π ε) (height : Int) (responses : List WitnessResponse)
  /-- the primary is replaced and dropped: a block it sent before does not
  verify (`verifySequential`, `verifySkippingAgainstPrimary`,
  `backwards`) -/
  | replacePrimary (world : World π ε) (height : Int) (responses : List WitnessResponse)
  /-- a verified block is cross-checked -/
  | detectDivergence (world : World π ε) (primaryRequests : Nat)
      (primaryTrace : List LightBlock) (reads : List (Nat × Message))
  /-- the first block is cross-checked -/
  | compareFirst (world : World π ε) (l : LightBlock) (reads : List (Nat × Message))

/-- The goroutines of `findNewPrimary`: each sends its witness's answer. -/
def answers (world : World π ε) (height : Int) (witnesses : List π)
    (index : Nat) : List (Except ProviderError LightBlock) :=
  match witnesses[index]? with
  | some witness => [world.lightBlock witness 0 height]
  | none => []

namespace Operation

/-- What is read from the channel is what the goroutines write to it, a
message for each witness. -/
def Admissible (client : Client π) : Operation π ε → Prop
  | lightBlockFromPrimary world height responses =>
    FanIn (answers world height client.witnesses) responses
      ∧ responses.length = client.witnesses.length
  | replacePrimary world height responses =>
    FanIn (answers world height client.witnesses) responses
      ∧ responses.length = client.witnesses.length
  | detectDivergence world _ primaryTrace reads =>
    ∀ l, primaryTrace.getLast? = some l →
      FanIn (comparisons world l client.witnesses) reads ∧ reads.length = client.witnesses.length
  | compareFirst world l reads =>
    FanIn (comparisons world l client.witnesses) reads ∧ reads.length = client.witnesses.length

def apply (client : Client π) : Operation π ε → Client π
  | lightBlockFromPrimary world height responses =>
    (Light.lightBlockFromPrimary client (world.lightBlock client.primary 0 height) responses).2
  | replacePrimary _ _ responses => (findNewPrimary client true responses).2
  | detectDivergence world primaryRequests primaryTrace reads =>
    (Light.detectDivergence world client primaryRequests primaryTrace reads).2
  | compareFirst _ _ reads => (compareFirstLightBlockWithWitnesses client reads).2

def drops (client : Client π) : Operation π ε → Bool
  | lightBlockFromPrimary world height _ =>
    match world.lightBlock client.primary 0 height with
    | .error (.other _) => true
    | _ => false
  | replacePrimary _ _ _ => true
  | _ => false

/-- Whenever the primary is dropped, some witness is neither promoted nor
found bad before. -/
def Spares (client : Client π) : Operation π ε → Prop
  | op@(lightBlockFromPrimary _ _ responses) =>
    op.drops client = true → spared client.witnesses.length responses 0
  | replacePrimary _ _ responses => spared client.witnesses.length responses 0
  | _ => True

end Operation

def Client.run (client : Client π) (ops : List (Operation π ε)) : Client π :=
  ops.foldl Operation.apply client

-- ==== steps and runs

section Steps

variable {client : Client π} {world : World π ε} {height : Int} {responses : List WitnessResponse}

lemma marks_of_answers
    (h : FanIn (answers world height client.witnesses) responses) :
    Marks client [] responses := by
  have hone : ∀ i, ((answers world height client.witnesses i).filter fun _ => true).length ≤ 1 := by
    intro i
    unfold answers
    split
    · exact le_refl 1
    exact zero_le 1
  have hnodup := h.senders_nodup (fun _ => true) hone
  rw [filter_true] at hnodup
  refine ⟨hnodup, fun i hi => ?_⟩
  obtain ⟨⟨j, answer⟩, hx, rfl⟩ := mem_map.mp hi
  have hmem := h.mem hx
  by_contra hlarge
  unfold answers at hmem
  rw [getElem?_eq_none (not_lt.mp hlarge)] at hmem
  cases hmem

lemma findNewPrimary_distinct (hdistinct : client.Distinct)
    (hresponses : FanIn (answers world height client.witnesses) responses)
    {remove : Bool}
    (hspared : remove = true → spared client.witnesses.length responses 0) :
    (findNewPrimary client remove responses).2.Distinct := by
  unfold findNewPrimary
  split
  · exact hdistinct
  exact findLoop_distinct hdistinct remove responses [] _ (marks_of_answers hresponses) hspared

lemma findNewPrimary_overlap
    (hresponses : FanIn (answers world height client.witnesses) responses)
    (hspared : ¬ spared client.witnesses.length responses 0) :
    (findNewPrimary client true responses).2.primary
    ∈ (findNewPrimary client true responses).2.witnesses := by
  have hmarks := marks_of_answers hresponses
  unfold findNewPrimary
  split
  next hnone =>
    -- without witnesses there is no response either
    cases responses with
    | nil => exact absurd trivial hspared
    | cons response rest =>
      have hlt := hmarks.bound response.1 (mem_cons_self ..)
      rw [hnone] at hlt
      exact absurd hlt (not_lt_zero _)
  next => exact findLoop_overlap responses [] _ hmarks hspared

/-- What `lightBlockFromPrimary` does, by the answer of the primary. -/
lemma lightBlockFromPrimary_cases (client : Client π)
    (answer : Except ProviderError LightBlock) :
    (lightBlockFromPrimary client answer responses).2 = client
      ∨ (lightBlockFromPrimary client answer responses).2
        = (findNewPrimary client false responses).2
      ∨ ∃ wrapsContext, answer = .error (.other wrapsContext) := by
  cases answer with
  | ok l => exact .inl rfl
  | error err =>
    cases err with
    | noResponse | lightBlockNotFound | heightTooHigh => exact .inr (.inl rfl)
    | canceled | deadlineExceeded => exact .inl rfl
    | other wrapsContext => exact .inr (.inr ⟨wrapsContext, rfl⟩)

variable {op : Operation π ε}

/-- An operation that spares a witness keeps the providers distinct. -/
lemma apply_distinct (hdistinct : client.Distinct)
    (hadm : op.Admissible client) (hspares : op.Spares client) :
    (op.apply client).Distinct := by
  cases op with
  | lightBlockFromPrimary world height responses =>
    rw [Operation.apply]
    rcases lightBlockFromPrimary_cases client (world.lightBlock client.primary 0 height) with
      h | h | ⟨wrapsContext, h⟩
    · rwa [h]
    · rw [h]
      exact findNewPrimary_distinct hdistinct hadm.1 (fun hf => nomatch hf)
    rw [h]
    refine findNewPrimary_distinct hdistinct hadm.1 fun _ => hspares ?_
    rw [Operation.drops, h]
  | replacePrimary world height responses =>
    exact findNewPrimary_distinct hdistinct hadm.1 fun _ => hspares
  | detectDivergence world primaryRequests primaryTrace reads =>
    exact detectDivergence_distinct hdistinct primaryRequests fun l hl => (hadm l hl).1
  | compareFirst world l reads => exact compareFirst_distinct hdistinct hadm.1

lemma apply_overlap (hadm : op.Admissible client)
    (hspares : ¬ op.Spares client) :
    (op.apply client).primary ∈ (op.apply client).witnesses := by
  cases op with
  | lightBlockFromPrimary world height responses =>
    obtain ⟨hdrops, hspared⟩ := Classical.not_imp.mp hspares
    rw [Operation.drops] at hdrops
    split at hdrops
    next wrapsContext h =>
      rw [Operation.apply, h]
      exact findNewPrimary_overlap hadm.1 hspared
    next => cases hdrops
  | replacePrimary world height responses => exact findNewPrimary_overlap hadm.1 hspares
  | detectDivergence world primaryRequests primaryTrace reads => exact absurd trivial hspares
  | compareFirst world l reads => exact absurd trivial hspares

end Steps

lemma run_concat (client : Client π) (ops : List (Operation π ε))
    (op : Operation π ε) :
    client.run (ops ++ [op]) = op.apply (client.run ops) := by
  unfold Client.run
  rw [foldl_append, foldl_cons, foldl_nil]

/-- A client that starts with distinct providers never has its primary among
its witnesses exactly if, whenever it drops the primary, a witness is left
that is neither promoted nor found bad. -/
theorem primary_not_witness_iff (client : Client π)
    (hdistinct : client.Distinct) (ops : List (Operation π ε))
    (hadm : Along
      (fun before op => op.Admissible (client.run before)) [] ops) :
    (∀ before, before.IsPrefix ops →
      (client.run before).primary ∉ (client.run before).witnesses)
      ↔ Along (fun before op => op.Spares (client.run before)) [] ops := by
  refine forall_prefix_iff_along_of (J := fun before =>
    (client.run before).Distinct) hdistinct
    (fun _ h => (List.nodup_cons.mp h).1) fun before op hbefore h => ?_
  obtain ⟨after, rfl⟩ := hbefore
  rw [List.append_assoc] at hadm
  have hop := hadm.of_append
  rw [run_concat]
  exact ⟨fun hfinal => by_contra fun hnot => hfinal (apply_overlap hop hnot),
    apply_distinct h hop⟩

def badPrimary : World Nat Unit where
  hash := Header.appHash
  sum := id
  lightBlock provider _ height :=
    if provider = 0 then .error (.other false)
    else .ok (sampleBlock height [])
  lightBlock_height := by
    intro provider request height block _ h
    split at h
    · cases h
    cases h
    rfl
  verifySkipping _ _ _ _ := .error ()

/-- With two witnesses the first is promoted and the second stays. -/
theorem primary_replaced_by_first :
    (⟨0, [1, 2]⟩ : Client Nat).Distinct
      ∧ ∀ before, before.IsPrefix [Operation.lightBlockFromPrimary badPrimary 5
        [(0, .ok (sampleBlock 5 [])), (1, .ok (sampleBlock 5 []))]] →
        ((⟨0, [1, 2]⟩ : Client Nat).run before).primary
          ∉ ((⟨0, [1, 2]⟩ : Client Nat).run before).witnesses := by
  have hdistinct : (⟨0, [1, 2]⟩ : Client Nat).Distinct := by
    unfold Client.Distinct
    decide
  refine ⟨hdistinct, (primary_not_witness_iff ⟨0, [1, 2]⟩ hdistinct _ ?_).mpr ?_⟩
  · refine ⟨⟨?_, rfl⟩, trivial⟩
    refine .cons 0 _ [] rfl (.cons 1 _ [] rfl .nil)
  exact ⟨fun _ => by decide, trivial⟩

/-- With one witness it is promoted and stays a witness: the request fails
with `ErrNoWitnesses`, and from then on the client would cross-check the
primary with itself. -/
theorem only_witness_becomes_primary :
    (⟨0, [1]⟩ : Client Nat).Distinct
      ∧ Along (fun before op =>
        Operation.Admissible ((⟨0, [1]⟩ : Client Nat).run before) op) []
        [.lightBlockFromPrimary badPrimary 5 [(0, .ok (sampleBlock 5 []))]]
      ∧ (⟨0, [1]⟩ : Client Nat).run [.lightBlockFromPrimary badPrimary 5
        [(0, .ok (sampleBlock 5 []))]] = ⟨1, [1]⟩ := by
  refine ⟨?_, ⟨⟨.cons 0 _ [] rfl .nil, rfl⟩, trivial⟩, rfl⟩
  unfold Client.Distinct
  decide

end HetuEngine.Light
