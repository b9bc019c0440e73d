/-
What the calls do to the store of the evidence pool.

Every call changes the evidence in a few ways only (`Change`): evidence that
is not committed is added, pending evidence is put on the list or removed,
and evidence that is not pending is marked as committed. What these preserve
holds in every run: the pending evidence is in the order of its keys, no key
is both pending and committed, and what is on the list is pending (`Sane`).
The size follows the pending evidence as long as nothing is added that is
pending already (`Counted`).
-/
import HetuEngine.EvidencePool.Pool

namespace HetuEngine.EvidencePool

open Comet Evidence Key

variable {enc : Encoding}

/-- Storing evidence keeps its key. -/
@[simp] lemma Evidence.stored_key (ev : Evidence) :
    ev.stored.key enc = ev.key enc := by
  cases ev with
  | duplicateVote dve => rfl
  | lightClientAttack l => rfl

-- ==== the pending list

variable {l : List Evidence} {a b : Key}

/-- A write to the pending evidence brings nothing else in. -/
lemma mem_setPending {ev e : Evidence} (h : e ∈ setPending enc ev l) :
    e = ev ∨ e ∈ l := by
  induction l with
  | nil => exact .inl (List.mem_singleton.mp h)
  | cons a l ih =>
    unfold setPending at h
    split at h
    · rcases List.mem_cons.mp h with h | h
      · exact .inl h
      exact .inr (List.mem_cons_of_mem _ h)
    split at h
    · exact List.mem_cons.mp h
    rcases List.mem_cons.mp h with rfl | h
    · exact .inr (List.mem_cons_self ..)
    exact (ih h).imp id (List.mem_cons_of_mem _)

/-- Keys are ordered by height, then by hash. -/
lemma Key.before_iff :
    before a b = true ↔ a.1 < b.1 ∨ a.1 = b.1 ∧ a.2 < b.2 := by
  unfold before
  simp

lemma Key.before_trans {d : Key} (h : before a b = true)
    (h' : before b d = true) : before a d = true := by
  rw [before_iff] at h h' ⊢
  rcases h with h | ⟨h, hlt⟩
  · rcases h' with h' | ⟨h', -⟩
    · exact .inl (h.trans h')
    exact .inl (h' ▸ h)
  rcases h' with h' | ⟨h', hlt'⟩
  · exact .inl (h ▸ h')
  exact .inr ⟨h.trans h', List.lt_trans hlt hlt'⟩

lemma Key.ne_of_before (h : before a b = true) : a ≠ b := by
  rintro rfl
  rw [before_iff] at h
  rcases h with h | ⟨-, h⟩
  · exact absurd h (lt_irrefl _)
  exact absurd h (List.lt_irrefl _)

/-- The order of the keys is total. -/
lemma Key.before_of_not (hne : a ≠ b) (h : ¬before a b = true) :
    before b a = true := by
  rw [before_iff, not_or] at h
  rw [before_iff]
  obtain ⟨hheight, hhash⟩ := h
  rcases lt_or_eq_of_le (Int.not_lt.mp hheight) with hlt | heq
  · exact .inl hlt
  refine .inr ⟨heq, ?_⟩
  by_contra hnot
  have hle : ¬a.2 < b.2 := fun h => hhash ⟨heq.symm, h⟩
  exact hne (Prod.ext heq.symm (List.le_antisymm hnot hle))

def Sorted (enc : Encoding) (l : List Evidence) : Prop :=
  l.Pairwise fun a b => Key.before (a.key enc) (b.key enc) = true

/-- A write keeps the order of the keys. -/
lemma sorted_setPending {ev : Evidence}
    (h : Sorted enc l) : Sorted enc (setPending enc ev l) := by
  induction l with
  | nil => exact List.pairwise_singleton _ _
  | cons a l ih =>
    obtain ⟨hhead, htail⟩ := List.pairwise_cons.mp h
    unfold setPending
    split
    next hkey =>
      refine List.pairwise_cons.mpr ⟨fun e he => ?_, htail⟩
      rw [← hkey]
      exact hhead e he
    split
    next hbefore =>
      refine List.pairwise_cons.mpr ⟨fun e he => ?_, h⟩
      rcases List.mem_cons.mp he with rfl | he
      · exact hbefore
      exact before_trans hbefore (hhead e he)
    next hkey hbefore =>
    refine List.pairwise_cons.mpr ⟨fun e he => ?_, ih htail⟩
    rcases mem_setPending he with rfl | he
    · exact before_of_not (Ne.symm hkey) hbefore
    exact hhead e he

/-- A write adds one entry at most. -/
lemma length_setPending_le (ev : Evidence) (l : List Evidence) :
    (setPending enc ev l).length ≤ l.length + 1 := by
  induction l with
  | nil => exact le_rfl
  | cons a l ih =>
    unfold setPending
    split
    · exact Nat.le_succ _
    split
    · exact le_rfl
    exact Nat.succ_le_succ ih

/-- The keys after a write. -/
lemma key_mem_setPending {ev : Evidence} :
    a ∈ (setPending enc ev l).map (key enc)
      ↔ a = ev.key enc ∨ a ∈ l.map (key enc) := by
  induction l with
  | nil => simp [setPending]
  | cons e l ih =>
    unfold setPending
    split
    next hkey => simp [hkey]
    split
    · simp
    rw [List.map_cons, List.mem_cons, ih, List.map_cons, List.mem_cons]
    exact or_left_comm

/-- A write under a new key adds an entry. -/
lemma length_setPending {ev : Evidence} (h : ev.key enc ∉ l.map (key enc)) :
    (setPending enc ev l).length = l.length + 1 := by
  induction l with
  | nil => rfl
  | cons e l ih =>
    rw [List.map_cons, List.mem_cons, not_or] at h
    unfold setPending
    rw [if_neg (Ne.symm h.1)]
    split
    · rfl
    exact congrArg (· + 1) (ih h.2)

/-- In the order of the keys, no key is there twice. -/
lemma Sorted.nodup (h : Sorted enc l) : (l.map (key enc)).Nodup :=
  List.pairwise_map.mpr (h.imp ne_of_before)

/-- Removing a key that is there removes one entry. -/
lemma length_filter_key (h : Sorted enc l) (ha : a ∈ l.map (key enc)) :
    (l.filter fun e => e.key enc ≠ a).length + 1 = l.length := by
  have hfilter : (l.filter fun e => e.key enc ≠ a).map (key enc)
      = (l.map (key enc)).erase a := by
    rw [h.nodup.erase_eq_filter, List.filter_map]
    congr 2
    funext e
    rw [Bool.eq_iff_iff]
    simp
  have hlength := List.length_erase_of_mem ha
  rw [← hfilter, List.length_map, List.length_map] at hlength
  have hpos := List.length_pos_of_mem ha
  rw [List.length_map] at hpos
  omega

-- ==== changes

namespace Pool

/-- What the calls can do to the evidence of a pool; `again` is whether
evidence can be added that is pending. -/
inductive Change (enc : Encoding) (again : Prop) : Pool → Pool → Prop where
  | same {pool pool' : Pool} (hpending : pool'.pending = pool.pending)
      (hcommitted : pool'.committed = pool.committed)
      (hlist : pool'.evidenceList = pool.evidenceList)
      (hsize : pool'.evidenceSize = pool.evidenceSize) : Change enc again pool pool'
  | add {pool : Pool} (ev : Evidence) (hnew : pool.isCommitted enc ev = false)
      (hfresh : again ∨ pool.isPending enc ev = false) :
      Change enc again pool (pool.addPendingEvidence enc ev)
  | push {pool : Pool} (ev : Evidence) (hpending : pool.isPending enc ev = true) :
      Change enc again pool (pool.pushBack ev)
  | remove {pool : Pool} (ev : Evidence) (hpending : pool.isPending enc ev = true) :
      Change enc again pool (pool.removePendingEvidence enc ev)
  | commit {pool : Pool} (ev : Evidence) (hnone : pool.isPending enc ev = false) :
      Change enc again pool { pool with committed := ev.key enc :: pool.committed }

structure Sane (enc : Encoding) (pool : Pool) : Prop where
  sorted : Sorted enc pool.pending
  disjoint : ∀ ev ∈ pool.pending, ev.key enc ∉ pool.committed
  listed : ∀ ev ∈ pool.evidenceList, pool.isPending enc ev = true

def Counted (pool : Pool) : Prop := pool.evidenceSize = UInt32.ofNat pool.pending.length

variable {ev : Evidence} {pool pool' : Pool} {c : Verifier} {again : Prop}

lemma isPending_iff : pool.isPending enc ev = true
    ↔ ev.key enc ∈ pool.pending.map (key enc) := by
  unfold isPending
  simp

/-- Evidence that is added is pending, and so is what was. -/
lemma isPending_add {e : Evidence} :
    (pool.addPendingEvidence enc ev).isPending enc e = true
      ↔ e.key enc = ev.key enc ∨ pool.isPending enc e = true := by
  rw [isPending_iff, isPending_iff, ← ev.stored_key]
  exact key_mem_setPending

lemma isPending_eq_false : pool.isPending enc ev = false
    ↔ ∀ e ∈ pool.pending, e.key enc ≠ ev.key enc := by
  unfold isPending
  simp

lemma isCommitted_iff :
    pool.isCommitted enc ev = true ↔ ev.key enc ∈ pool.committed := by
  unfold isCommitted
  rw [List.contains_iff_mem]

/-- Removing evidence removes what has its key. -/
lemma mem_removePending {e : Evidence} :
    e ∈ (pool.removePendingEvidence enc ev).pending
      ↔ e ∈ pool.pending ∧ e.key enc ≠ ev.key enc := by
  unfold removePendingEvidence
  simp

/-- No change breaks the invariant of the store. -/
lemma Change.sane (h : Change enc again pool pool') (hs : pool.Sane enc) :
    pool'.Sane enc := by
  cases h with
  | same hpending hcommitted hlist =>
    constructor
    · rw [hpending]
      exact hs.sorted
    · rw [hpending, hcommitted]
      exact hs.disjoint
    unfold isPending
    rw [hpending, hlist]
    exact hs.listed
  | add ev hnew =>
    refine ⟨sorted_setPending hs.sorted, fun e he hc => ?_,
      fun e he => isPending_add.mpr (.inr (hs.listed e he))⟩
    change e.key enc ∈ pool.committed at hc
    rcases mem_setPending he with rfl | he
    · rw [stored_key, ← isCommitted_iff, hnew] at hc
      cases hc
    exact hs.disjoint e he hc
  | push ev hpending =>
    refine ⟨hs.sorted, hs.disjoint, fun e he => ?_⟩
    rcases List.mem_append.mp he with he | he
    · exact hs.listed e he
    rw [List.mem_singleton.mp he]
    exact hpending
  | remove ev =>
    refine ⟨List.Pairwise.filter _ hs.sorted, fun e he => ?_, fun e he => ?_⟩
    · exact hs.disjoint e (mem_removePending.mp he).1
    obtain ⟨he, hhash⟩ := List.mem_filter.mp he
    obtain ⟨e', he', hkey⟩ := List.mem_map.mp (isPending_iff.mp (hs.listed e he))
    refine isPending_iff.mpr (List.mem_map.mpr ⟨e', mem_removePending.mpr ⟨he', fun h => ?_⟩, hkey⟩)
    exact of_decide_eq_true hhash (congrArg Prod.snd (hkey.symm.trans h))
  | commit ev hnone =>
    refine ⟨hs.sorted, fun e he hc => ?_, hs.listed⟩
    rcases List.mem_cons.mp hc with hkey | hc
    · exact isPending_eq_false.mp hnone e he hkey
    exact hs.disjoint e he hc

/-- The size follows a change, if it adds nothing that is pending. -/
lemma Change.counted (h : Change enc False pool pool') (hs : pool.Sane enc)
    (hcounted : pool.Counted) : pool'.Counted := by
  unfold Counted at *
  cases h with
  | same hpending hcommitted hlist hsize =>
    rw [hsize, hpending]
    exact hcounted
  | add ev hnew hfresh =>
    have hnot := Bool.eq_false_iff.mp (hfresh.resolve_left id)
    rw [ne_eq, isPending_iff, ← ev.stored_key] at hnot
    show pool.evidenceSize + 1 = UInt32.ofNat (setPending enc ev.stored pool.pending).length
    rw [length_setPending hnot, UInt32.ofNat_add, hcounted]
    rfl
  | push | commit => exact hcounted
  | remove ev hpending =>
    show pool.evidenceSize - 1
      = UInt32.ofNat (pool.pending.filter fun e => e.key enc ≠ ev.key enc).length
    rw [hcounted, ← length_filter_key hs.sorted (isPending_iff.mp hpending), UInt32.ofNat_add]
    exact UInt32.add_sub_cancel _ _

abbrev Changes (enc : Encoding) (again : Prop) : Pool → Pool → Prop :=
  Relation.ReflTransGen (Change enc again)

/-- The invariant of the store along changes. -/
lemma Changes.sane (h : Changes enc again pool pool') (hs : pool.Sane enc) :
    pool'.Sane enc := by
  induction h with
  | refl => exact hs
  | tail _ hstep ih => exact hstep.sane ih

/-- The size along changes. -/
lemma Changes.counted (h : Changes enc False pool pool') (hs : pool.Sane enc)
    (hcounted : pool.Counted) : pool'.Counted := by
  induction h with
  | refl => exact hcounted
  | tail hrest hstep ih => exact hstep.counted (Changes.sane hrest hs) ih

/-- New evidence is added and put on the list. -/
lemma changes_new (hpending : ¬pool.isPending enc ev = true)
    (hnew : ¬pool.isCommitted enc ev = true) :
    Changes enc again pool ((pool.addPendingEvidence enc ev).pushBack ev) :=
  (Relation.ReflTransGen.single (.add ev (Bool.eq_false_iff.mpr hnew)
    (.inr (Bool.eq_false_iff.mpr hpending)))).tail (.push ev (isPending_add.mpr (.inl rfl)))

-- ==== the operations

/-- `AddEvidence` adds evidence that is neither pending nor committed. -/
lemma changes_addEvidence (h : pool.addEvidence c enc ev = .ok pool') :
    Changes enc again pool pool' := by
  unfold addEvidence at h
  split at h
  · cases h
    exact .refl
  next hpending =>
  split at h
  · cases h
    exact .refl
  next hnew =>
  split at h
  · cases h
  cases h
  exact changes_new hpending hnew

/-- One turn of `CheckEvidence` adds the evidence, which may be pending if it
is of a light client attack, or does nothing. -/
lemma changes_checkOne
    (hfresh : again ∨ (ev.isLight = true → pool.isPending enc ev = false))
    (h : pool.checkOne c enc ev = .ok pool') :
    Changes enc again pool pool'
      ∧ (pool' = pool ∨ pool' = pool.addPendingEvidence enc ev) := by
  unfold checkOne at h
  split at h
  next hcheck =>
    split at h
    · cases h
    next hnew =>
    split at h
    · cases h
    cases h
    refine ⟨.single (.add ev (Bool.eq_false_iff.mpr hnew) (hfresh.imp_right fun hlight => ?_)),
      .inr rfl⟩
    rcases Bool.or_eq_true_iff.mp hcheck with hl | hpending
    · exact hlight hl
    exact Bool.not_eq_true' _ ▸ hpending
  · cases h
    exact ⟨.refl, .inl rfl⟩

variable {evs : List Evidence} {node : Node}

/-- What is asked of each piece of evidence that `checkLoop` gets to and lets
pass, in the pool of its turn. -/
def EachTurn (c : Verifier) (enc : Encoding) (q : Pool → Evidence → Prop) :
    List Evidence → List Bytes → Pool → Prop
  | [], _, _ => True
  | ev :: rest, hashes, pool =>
    match pool.checkOne c enc ev with
    | .error _ => True
    | .ok pool' => q pool ev ∧ (hashes.contains (ev.hash enc) = false →
        EachTurn c enc q rest (hashes ++ [ev.hash enc]) pool')

instance EachTurn.decidable {q : Pool → Evidence → Prop}
    [∀ pool ev, Decidable (q pool ev)] :
    ∀ evs hashes pool, Decidable (EachTurn c enc q evs hashes pool)
  | [], _, _ => instDecidableTrue
  | ev :: rest, hashes, pool =>
    match h : pool.checkOne c enc ev with
    | .error _ => isTrue (by simp only [EachTurn, h])
    | .ok pool' =>
      let _ := EachTurn.decidable (q := q) rest (hashes ++ [ev.hash enc]) pool'
      decidable_of_iff (q pool ev ∧ (hashes.contains (ev.hash enc) = false →
        EachTurn c enc q rest (hashes ++ [ev.hash enc]) pool'))
        (by simp only [EachTurn, h])

/-- Evidence of a light client attack is not pending. -/
abbrev Fresh (enc : Encoding) (pool : Pool) (ev : Evidence) : Prop :=
  ev.isLight = true → pool.isPending enc ev = false

/-- The loop of `CheckEvidence` adds what it verifies. -/
lemma changes_checkLoop {hashes : List Bytes}
    (hfresh : again ∨ EachTurn c enc (Fresh enc) evs hashes pool) :
    Changes enc again pool (checkLoop c enc evs hashes pool).1 := by
  induction evs generalizing hashes pool with
  | nil => exact .refl
  | cons ev evs ih =>
    unfold checkLoop
    split
    · exact .refl
    next pool' hone =>
    unfold EachTurn at hfresh
    rw [hone] at hfresh
    have hchanges := (changes_checkOne (hfresh.imp_right And.left) hone).1
    split
    · exact hchanges
    next hnew =>
    refine hchanges.trans (ih (hfresh.imp_right fun h => ?_))
    exact h.2 (Bool.eq_false_iff.mpr hnew)

/-- A pair of conflicting votes from consensus becomes evidence. -/
lemma changes_processVotes (pool : Pool) (votes : Vote × Vote) :
    Changes enc again pool (processVotes enc node pool votes) := by
  unfold processVotes
  split
  · exact .refl
  dsimp only
  split
  · exact .refl
  next hpending =>
  split
  · exact .refl
  next hnew => exact changes_new hpending hnew

/-- All pairs of conflicting votes in the buffer. -/
lemma changes_processConsensusBuffer (pool : Pool) :
    Changes enc again pool (pool.processConsensusBuffer enc node) := by
  have hfold := List.foldlRecOn pool.consensusBuffer (processVotes enc node)
    (motive := Changes enc again pool) .refl
    fun _ h votes _ => h.trans (changes_processVotes _ votes)
  exact hfold.tail (.same rfl rfl rfl rfl)

/-- Evidence is removed before it is marked as committed. -/
lemma changes_markCommitted (pool : Pool) (ev : Evidence) :
    Changes enc again pool (pool.markCommitted enc ev) := by
  unfold markCommitted
  split
  next hpending =>
    refine (Relation.ReflTransGen.single (.remove ev hpending)).tail (.commit ev ?_)
    exact isPending_eq_false.mpr fun e he => (mem_removePending.mp he).2
  next hnone => exact .single (.commit ev (Bool.eq_false_iff.mpr hnone))

/-- The loop that removes expired evidence walks over entries that are still
pending. -/
lemma changes_removeExpiredLoop {c : Crypto} (hsorted : Sorted enc evs)
    (hmem : ∀ ev ∈ evs, ev ∈ pool.pending) :
    Changes enc again pool (removeExpiredLoop c enc evs pool).1 := by
  induction evs generalizing pool with
  | nil => exact .refl
  | cons ev evs ih =>
    obtain ⟨hhead, htail⟩ := List.pairwise_cons.mp hsorted
    obtain ⟨hev, hevs⟩ := List.forall_mem_cons.mp hmem
    unfold removeExpiredLoop
    split
    · exact ih htail hevs
    split
    · exact .refl
    refine (Relation.ReflTransGen.single (.remove ev
      (isPending_iff.mpr (List.mem_map_of_mem hev)))).trans (ih htail fun e he => ?_)
    exact mem_removePending.mpr ⟨hevs e he, (ne_of_before (hhead e he)).symm⟩

/-- Expired evidence is removed. -/
lemma changes_removeExpired {c : Crypto} (hs : pool.Sane enc) :
    Changes enc again pool (pool.removeExpiredPendingEvidence c enc) :=
  (changes_removeExpiredLoop hs.sorted fun _ h => h).tail (.same rfl rfl rfl rfl)

/-- The part of `Update` that comes before the removal of expired evidence. -/
lemma changes_updated (pool : Pool) (node : Node) (evidence : List Evidence) :
    Changes enc again pool (pool.updated enc node evidence) := by
  refine .trans ?_ (List.foldlRecOn evidence (markCommitted enc) .refl fun _ h ev _ =>
    h.trans (changes_markCommitted _ ev))
  exact (changes_processConsensusBuffer pool).tail (.same rfl rfl rfl rfl)

/-- Without a limit on the size, all evidence is listed. -/
lemma listEvidenceLoop_all {c : Crypto} {size : List Evidence → Int}
    {listed result : List Evidence}
    (h : listEvidenceLoop c enc size (-1) evs listed = some result) :
    result = listed ++ evs := by
  induction evs generalizing listed result with
  | nil =>
    cases h
    exact (List.append_nil _).symm
  | cons ev evs ih =>
    unfold listEvidenceLoop at h
    rw [if_neg (by simp)] at h
    split at h
    · cases h
    rw [ih h, List.append_assoc]
    rfl

/-- A pool that is opened again is in order. -/
lemma sane_new {c : Crypto} (hs : pool.Sane enc)
    (h : new c enc node pool.pending pool.committed = some pool') :
    pool'.Sane enc ∧ pool'.Counted := by
  have hstart : Sane enc ⟨node, pool.pending, pool.committed, [], 0, [], 0, zeroTime⟩ :=
    ⟨hs.sorted, hs.disjoint, List.forall_mem_nil _⟩
  have hsane := (@changes_removeExpired _ _ True c hstart).sane hstart
  unfold new at h
  dsimp only at h
  split at h
  · cases h
  next hlist =>
  cases h
  obtain rfl := listEvidenceLoop_all hlist
  exact ⟨⟨hsane.sorted, hsane.disjoint, fun ev hev => isPending_iff.mpr
    (List.mem_map_of_mem hev)⟩, rfl⟩

/-- `CheckEvidence` lets no evidence of a light client attack pass that is
pending at its turn. -/
def Call.Once (c : Verifier) (enc : Encoding) (pool : Pool) : Call → Prop
  | .checkEvidence evList => EachTurn c enc (Fresh enc) evList [] pool
  | _ => True

instance (pool : Pool) : ∀ call : Call, Decidable (call.Once c enc pool)
  | .checkEvidence evList =>
    inferInstanceAs (Decidable (EachTurn c enc (Fresh enc) evList [] pool))
  | .addEvidence _ | .reportConflictingVotes _ _ | .update _ _ | .store _
  | .restart _ => instDecidableTrue

/-- The pool after `CheckEvidence`, if the process goes on. -/
lemma call_checkEvidence {evList : List Evidence}
    (h : pool.call c enc (.checkEvidence evList) = some pool') :
    pool' = (pool.checkEvidence c enc evList).1 := by
  unfold Pool.call at h
  dsimp only at h
  split at h
  next hcheck =>
    split at h
    · cases h
    cases h
    rw [hcheck]
  next hcheck =>
  cases h
  rw [hcheck]

/-- The pool after `AddEvidence`, if the process goes on. -/
lemma call_addEvidence {ev : Evidence}
    (h : pool.call c enc (.addEvidence ev) = some pool') :
    pool.addEvidence c enc ev = .ok pool' ∨ pool' = pool := by
  unfold Pool.call at h
  dsimp only at h
  split at h
  next hadd =>
    cases h
    exact .inl hadd
  split at h
  · cases h
  cases h
  exact .inr rfl

/-- One call keeps the invariant, and the size if it adds nothing twice. -/
lemma call_spec {call : Call} (hs : pool.Sane enc)
    (h : pool.call c enc call = some pool') : pool'.Sane enc
    ∧ (call.Once c enc pool → pool.Counted → pool'.Counted) := by
  suffices hchanges :
      (∀ again, again ∨ call.Once c enc pool → Changes enc again pool pool')
      ∨ (pool'.Sane enc ∧ pool'.Counted) by
    rcases hchanges with hchanges | ⟨hsane, hcounted⟩
    · exact ⟨(hchanges True (.inl trivial)).sane hs,
        fun honce => (hchanges False (.inr honce)).counted hs⟩
    exact ⟨hsane, fun _ _ => hcounted⟩
  cases call with
  | addEvidence ev =>
    rcases call_addEvidence h with hadd | rfl
    · exact .inl fun _ _ => changes_addEvidence hadd
    exact .inl fun _ _ => .refl
  | checkEvidence evList =>
    rw [call_checkEvidence h]
    exact .inl fun again hfresh => changes_checkLoop hfresh
  | reportConflictingVotes | store =>
    cases h
    exact .inl fun _ _ => .single (.same rfl rfl rfl rfl)
  | update node evidence =>
    change pool.update c.toCrypto enc node evidence = some pool' at h
    unfold update at h
    split at h
    · cases h
    cases h
    refine .inl fun again _ => ?_
    have hupdated := @changes_updated enc again pool node evidence
    split
    · exact hupdated.trans (changes_removeExpired (hupdated.sane hs))
    exact hupdated
  | restart node => exact .inr (sane_new hs h)

/-- Every call that is reached in a run meets a condition. -/
def EachCall (c : Verifier) (enc : Encoding) (q : Pool → Call → Prop) :
    List Call → Pool → Prop
  | [], _ => True
  | call :: calls, pool => q pool call
      ∧ ∀ pool', pool.call c enc call = some pool' → EachCall c enc q calls pool'

instance EachCall.decidable {q : Pool → Call → Prop}
    [∀ pool call, Decidable (q pool call)] :
    ∀ calls pool, Decidable (EachCall c enc q calls pool)
  | [], _ => instDecidableTrue
  | call :: calls, pool =>
    match h : pool.call c enc call with
    | none => decidable_of_iff (q pool call) (by simp [EachCall, h])
    | some pool' =>
      let _ := EachCall.decidable (q := q) calls pool'
      decidable_of_iff (q pool call ∧ EachCall c enc q calls pool')
        (by simp [EachCall, h])

/-- `CheckEvidence` lets no evidence of light client attacks pass twice. -/
abbrev OnceRun (c : Verifier) (enc : Encoding) : List Call → Pool → Prop :=
  EachCall c enc fun pool call => call.Once c enc pool

/-- The same for a whole run. -/
lemma run_spec {calls : List Call} (hs : pool.Sane enc)
    (h : pool.run c enc calls = some pool') : pool'.Sane enc
    ∧ (OnceRun c enc calls pool → pool.Counted → pool'.Counted) := by
  induction calls generalizing pool with
  | nil =>
    cases h
    exact ⟨hs, fun _ hcounted => hcounted⟩
  | cons call calls ih =>
    unfold run at h
    split at h
    · cases h
    next pool'' hcall =>
    obtain ⟨hsane, hkept⟩ := call_spec hs hcall
    obtain ⟨hsane', hkept'⟩ := ih hsane h
    exact ⟨hsane', fun honce hcounted => hkept' (honce.2 _ hcall) (hkept honce.1 hcounted)⟩

/-- The empty pool. -/
lemma sane_empty (node : Node) : (empty node).Sane enc :=
  ⟨List.Pairwise.nil, List.forall_mem_nil _, List.forall_mem_nil _⟩

end Pool

end HetuEngine.EvidencePool
