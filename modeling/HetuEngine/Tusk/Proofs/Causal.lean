/-
Causal completeness: when a certificate is written, the delivered
certificates it descends from have been written before it.

# The exact condition

`causally_complete_iff` says when a run is causally complete: whenever a
leader is flattened, every ancestor of it that was delivered, is within the
garbage collection depth and has not been written is still in the DAG, and
is not at its author's last committed round (`Retained`).

The walk from the leader follows parents through the DAG and stops where one
is missing or skipped. A path to an unwritten ancestor meets no written
certificate on its way, since what is below a written one has been written
(this is where the induction over the run comes in), so the walk gets
through if everything unwritten is there.

# Where it fails

`State::update` removes every certificate of an author below the author's
last committed round, written or not. A later leader that descends from such
a certificate is written without it (`causally_complete_fails`).
-/
import HetuEngine.Tusk.Proofs.Integrity

namespace HetuEngine.Tusk

open Lib Lib.Weight Narwhal Consensus Relation.ReflTransGen Trio Commit

variable {cn : Consensus} {all cs : List Certificate}

-- ==== ancestors

/-- Digests identify the certificates received. -/
def Identified (cn : Consensus) (all : List Certificate) : Prop :=
  ∀ c ∈ cn.genesis ++ all, ∀ d ∈ cn.genesis ++ all, c.digest cn.crypto = d.digest cn.crypto → c = d

def ParentIn (cn : Consensus) (all : List Certificate) (c q : Certificate) : Prop :=
  q ∈ cn.genesis ++ all ∧ q.digest cn.crypto ∈ c.header.parents

def Ancestor (cn : Consensus) (all : List Certificate) : Certificate → Certificate → Prop :=
  Relation.TransGen (ParentIn cn all)

/-- `p` is a delivered ancestor of `c` within the garbage collection depth
of the state. The genesis certificates are not delivered: they are in the
DAG, and count as committed, from the start. -/
structure DueAncestor (cn : Consensus) (all : List Certificate)
    (s : State) (c p : Certificate) : Prop where
  delivered : p ∈ all
  notGenesis : p ∉ cn.genesis
  ancestor : Ancestor cn all c p
  recent : s.lastCommittedRound ≤ p.round + cn.gcDepth

/-- What the part of the output a leader contributes has to satisfy, after
the parts `before`: in front of each certificate stand its due ancestors. -/
def CompleteAt (cn : Consensus) (all : List Certificate)
    (before : List Commit) (k : Commit) : Prop :=
  ∀ u c v, k.sequence = u ++ c :: v → ∀ p, DueAncestor cn all k.state c p →
      p ∈ before.flatMap Commit.sequence ++ u

/-- What the state a leader is flattened in has to satisfy: its unwritten
due ancestors are in the DAG, and not at their author's last committed
round. -/
def RetainedAt (cn : Consensus) (all : List Certificate)
    (before : List Commit) (k : Commit) : Prop :=
  ∀ p, DueAncestor cn all k.state k.leader p → p
    ∉ before.flatMap Commit.sequence → k.state.entry p.round p.origin = some (p.digest cn.crypto, p)
    ∧ k.state.lastCommitted.lookup p.origin ≠ some p.round

structure CausallyComplete (cn : Consensus) (all : List Certificate) (ks : List Commit) : Prop where
  along : Along (CompleteAt cn all) [] ks

/-- Every leader was flattened with its unwritten ancestors at hand. -/
structure Retained (cn : Consensus) (all : List Certificate) (ks : List Commit) : Prop where
  along : Along (RetainedAt cn all) [] ks

lemma mem_all_of_mem (hsub : ∀ c ∈ cs, c ∈ all) {c : Certificate}
    (hc : c ∈ cn.genesis ++ cs) : c ∈ cn.genesis ++ all := by
  rcases List.mem_append.mp hc with hg | hc
  · exact List.mem_append_left _ hg
  exact List.mem_append_right _ (hsub c hc)

section

variable (hid : Identified cn all) (hsub : ∀ c ∈ cs, c ∈ all)
  (hpar : ∀ c ∈ cn.genesis ++ cs, ParentFirst cn cs c) {c p q : Certificate}
  (hc : c ∈ cn.genesis ++ cs)

include hid hsub hpar hc

/-- A parent of a received certificate was received, one round below. -/
lemma ParentIn.spec (h : ParentIn cn all c q) :
    q ∈ cn.genesis ++ cs ∧ q.round + 1 = c.round := by
  obtain ⟨q', hq', hd, hr⟩ := hpar c hc _ h.2
  rw [← hid q' (mem_all_of_mem hsub hq') q h.1 hd]
  exact ⟨hq', hr⟩

lemma Ancestor.spec (h : Ancestor cn all c p) :
    p ∈ cn.genesis ++ cs ∧ p.round < c.round := by
  induction h with
  | single h =>
    obtain ⟨hmem, hr⟩ := h.spec hid hsub hpar hc
    exact ⟨hmem, by omega⟩
  | tail _ h ih =>
    obtain ⟨hmem, hr⟩ := h.spec hid hsub hpar ih.1
    exact ⟨hmem, by omega⟩

end

variable {c p : Certificate}

lemma reach_ancestor (hsub : ∀ c ∈ cs, c ∈ all) {s : State}
    (hinv : Inv cn cs s) (hpar : ∀ c ∈ cn.genesis ++ cs, ParentFirst cn cs c)
    {root x : Digest × Certificate} (hroot : root.2 ∈ cn.genesis ++ cs)
    (hdig : root.1 = root.2.digest cn.crypto)
    (h : Worklist.Reach (dagChildren s) root x) :
    x = root ∨ Ancestor cn all root.2 x.2 := by
  induction h with
  | refl => exact Or.inl rfl
  | @tail y z hy hz ih =>
    right
    have hyrec := (reach_spec hinv hpar hroot hdig hy).1
    obtain ⟨hzrec, hzd, -, -⟩ := child_spec hinv hpar hyrec hz
    have hedge : ParentIn cn all y.2 z.2 := by
      refine ⟨mem_all_of_mem hsub hzrec, ?_⟩
      rw [← hzd]
      exact (mem_dagChildren hz).1
    rcases ih with rfl | ih
    · exact Relation.TransGen.single hedge
    exact Relation.TransGen.tail ih hedge

-- ==== one leader

/-- A node that received `cs`, a part of `all`, wrote `ks` and is in state
`s`. -/
structure Scene (cn : Consensus) (all cs : List Certificate)
    (ks : List Commit) (s : State) : Prop where
  identified : Identified cn all
  sub : ∀ c ∈ cs, c ∈ all
  inv : Inv cn cs s
  closed : ∀ c ∈ cn.genesis ++ cs, ParentFirst cn cs c
  fits : ∀ c ∈ all, c.round + cn.gcDepth < 2 ^ 64
  earlier : ∀ k ∈ ks, k.state.lastCommittedRound ≤ s.lastCommittedRound

/-- An edge of the ancestry is an edge of the walk, if its end is at
hand. -/
lemma child_of_retained (hid : Identified cn all) (hsub : ∀ c ∈ cs, c ∈ all)
    {s : State} (hinv : Inv cn cs s)
    (hpar : ∀ c ∈ cn.genesis ++ cs, ParentFirst cn cs c) {x : Certificate}
    (hx : x ∈ cn.genesis ++ cs) (hedge : ParentIn cn all x p)
    (hentry : s.entry p.round p.origin = some (p.digest cn.crypto, p))
    (hskip : s.lastCommitted.lookup p.origin ≠ some p.round) :
    (p.digest cn.crypto, p) ∈ dagChildren s (x.digest cn.crypto, x) := by
  obtain ⟨-, hr⟩ := hedge.spec hid hsub hpar hx
  have hround : u64Sub x.round 1 = p.round := by
    rw [show u64Sub x.round 1 = x.round - 1 from wordSub_of_le (by omega)]
    omega
  refine (mem_dagChildren_iff fun n z hz hzd => ?_).mpr ⟨hedge.2, ⟨p.origin, ?_⟩, hskip⟩
  · obtain ⟨hd, -, -, hrec⟩ := hinv.spec hz
    exact Prod.ext hzd (hid _ (mem_all_of_mem hsub hrec) _ hedge.1 (hd.symm.trans hzd))
  show s.entry (u64Sub x.round 1) p.origin = _
  rw [hround]
  exact hentry

variable {ks : List Commit} {s : State} {l : Certificate}

/-- In a causally complete run what was due when a certificate was written
is written. -/
lemma CausallyComplete.mem_of_due (hks : CausallyComplete cn all ks)
    {k : Commit} (hk : k ∈ ks) (hc : c ∈ k.sequence)
    (hp : DueAncestor cn all k.state c p) : p ∈ ks.flatMap sequence := by
  obtain ⟨before, hpre, hcomplete⟩ := hks.along.of_mem hk
  obtain ⟨u, v, hsplit⟩ := List.append_of_mem hc
  rcases List.mem_append.mp (hcomplete u c v hsplit p hp) with hmem | hmem
  · obtain ⟨k', hk', hpk'⟩ := List.mem_flatMap.mp hmem
    exact List.mem_flatMap.mpr ⟨k', hpre.subset hk', hpk'⟩
  refine List.mem_flatMap.mpr ⟨k, hk, ?_⟩
  rw [hsplit]
  exact List.mem_append_left _ hmem

section

variable (h : Scene cn all cs ks s)

include h

/-- What is below a written certificate has been written, if it is due now:
then it was due when its descendant was written. -/
lemma Scene.below_written (hks : CausallyComplete cn all ks) {q : Certificate}
    (hq : q ∈ ks.flatMap sequence) (hp : DueAncestor cn all s q p) :
    p ∈ ks.flatMap sequence := by
  obtain ⟨k, hk, hqk⟩ := List.mem_flatMap.mp hq
  exact hks.mem_of_due hk hqk ⟨hp.delivered, hp.notGenesis, hp.ancestor,
    le_trans (h.earlier k hk) hp.recent⟩

/-- The walk from a leader gets to every unwritten due ancestor. -/
lemma Scene.reach_of_retained (hks : CausallyComplete cn all ks)
    (hl : l ∈ cn.genesis ++ cs)
    (hret : RetainedAt cn all ks ⟨s, l, cn.orderDag l s⟩)
    (hanc : Ancestor cn all l p) :
    DueAncestor cn all s l p → p ∉ ks.flatMap sequence →
      Worklist.Reach (dagChildren s) (l.digest cn.crypto, l)
        (p.digest cn.crypto, p) := by
  induction hanc with
  | single hedge =>
    intro hdue hnew
    obtain ⟨hentry, hskip⟩ := hret _ hdue hnew
    exact single (child_of_retained h.identified h.sub h.inv h.closed hl hedge hentry hskip)
  | @tail q p hq hedge ih =>
    intro hdue hnew
    obtain ⟨hentry, hskip⟩ := hret _ hdue hnew
    obtain ⟨hqrec, -⟩ := Ancestor.spec h.identified h.sub h.closed hl hq
    have hround := (hedge.spec h.identified h.sub h.closed hqrec).2
    have hqgen : q ∉ cn.genesis := by
      intro hg
      have hmem := hedge.2
      rw [Certificate.genesis_parents hg] at hmem
      cases hmem
    have hqall : q ∈ all := by
      rcases List.mem_append.mp hqrec with hg | hr
      · exact absurd hg hqgen
      exact h.sub q hr
    have hrecent := hdue.recent
    -- a written `q` would have `p` written below it
    have hqnew : q ∉ ks.flatMap sequence := fun hqw =>
      hnew (h.below_written hks hqw ⟨hdue.delivered, hdue.notGenesis,
        Relation.TransGen.single hedge, hdue.recent⟩)
    exact tail (ih ⟨hqall, hqgen, hq, by omega⟩ hqnew)
      (child_of_retained h.identified h.sub h.inv h.closed hqrec hedge hentry hskip)

/-- A due ancestor the walk gets to is part of the result. -/
lemma Scene.mem_orderDag_of_reach (hl : l ∈ cn.genesis ++ cs)
    (hdue : DueAncestor cn all s l p)
    (hreach : Worklist.Reach (dagChildren s) (l.digest cn.crypto, l)
      (p.digest cn.crypto, p)) :
    p ∈ cn.orderDag l s := by
  obtain ⟨out, hyields, heq⟩ := orderDag_eq cn s l
  rw [heq]
  refine mem_finish.mpr ⟨⟨_, hyields.complete ?_ hreach⟩, ?_⟩
  · intro x y hx hy hkey
    obtain ⟨hxrec, hxd, -⟩ := reach_spec h.inv h.closed hl rfl hx
    obtain ⟨hyrec, hyd, -⟩ := reach_spec h.inv h.closed hl rfl hy
    exact Prod.ext hkey (h.identified _ (mem_all_of_mem h.sub hxrec) _
      (mem_all_of_mem h.sub hyrec) (by rw [← hxd, ← hyd, hkey]))
  exact (State.recent_of_fits (h.fits p hdue.delivered)).mpr hdue.recent

/-- With everything unwritten at hand, a leader's part is complete. -/
lemma Scene.complete_of_retained (hks : CausallyComplete cn all ks)
    (hl : l ∈ cn.genesis ++ cs)
    (hret : RetainedAt cn all ks ⟨s, l, cn.orderDag l s⟩) :
    CompleteAt cn all ks ⟨s, l, cn.orderDag l s⟩ := by
  intro u c v hsplit p hp
  by_cases hold : p ∈ ks.flatMap sequence
  · exact List.mem_append_left _ hold
  refine List.mem_append_right _ ?_
  have hc : c ∈ cn.orderDag l s := by
    rw [show cn.orderDag l s = u ++ c :: v from hsplit]
    exact List.mem_append_right _ (List.mem_cons_self ..)
  have hcrec := (orderDag_mem h.inv h.closed hl hc).1
  have hround := (hp.ancestor.spec h.identified h.sub h.closed hcrec).2
  -- `c` is the leader or an ancestor of it, so `p` is one
  obtain ⟨out, hyields, heq⟩ := orderDag_eq cn s l
  rw [heq] at hc
  obtain ⟨⟨d, hout⟩, -⟩ := mem_finish.mp hc
  have hanc : Ancestor cn all l p := by
    rcases reach_ancestor h.sub h.inv h.closed hl rfl (hyields.reach _ hout) with hroot | hanc
    · cases hroot
      exact hp.ancestor
    exact Relation.TransGen.trans hanc hp.ancestor
  have hdue : DueAncestor cn all s l p := ⟨hp.delivered, hp.notGenesis, hanc, hp.recent⟩
  have hmem := h.mem_orderDag_of_reach hl hdue (h.reach_of_retained hks hl hret hanc hdue hold)
  rw [show cn.orderDag l s = u ++ c :: v from hsplit] at hmem
  rcases List.mem_append.mp hmem with hmem | hmem
  · exact hmem
  -- after `c` the rounds are at least that of `c`
  have hsorted : (cn.orderDag l s).Pairwise fun a b => a.round ≤ b.round :=
    List.pairwise_insertionSort _ _
  rw [show cn.orderDag l s = u ++ c :: v from hsplit] at hsorted
  have hge : c.round ≤ p.round := by
    rcases List.mem_cons.mp hmem with rfl | hmem
    · exact le_refl _
    exact (List.pairwise_cons.mp (List.pairwise_append.mp hsorted).2.1).1 p hmem
  omega

/-- If a leader's part is complete, everything unwritten was at hand. -/
lemma Scene.retained_of_complete (hl : IsLeader cn cs s l)
    (hcomplete : CompleteAt cn all ks ⟨s, l, cn.orderDag l s⟩) :
    RetainedAt cn all ks ⟨s, l, cn.orderDag l s⟩ := by
  intro p hp hnew
  have habove := hl.above
  have hlall : l ∈ all := by
    rcases List.mem_append.mp hl.mem with hg | hr
    · have := Certificate.genesis_round hg
      omega
    exact h.sub l hr
  have hlmem : l ∈ cn.orderDag l s := by
    exact leader_mem_orderDag ((State.recent_of_fits (h.fits l hlall)).mpr (by omega))
  obtain ⟨u, v, hsplit⟩ := List.append_of_mem hlmem
  have hpu : p ∈ u := by
    rcases List.mem_append.mp (hcomplete u l v hsplit p hp) with h | h
    · exact absurd h hnew
    exact h
  have hpmem : p ∈ cn.orderDag l s := by
    rw [hsplit]
    exact List.mem_append_left _ hpu
  have hround := (hp.ancestor.spec h.identified h.sub h.closed hl.mem).2
  obtain ⟨out, hyields, heq⟩ := orderDag_eq cn s l
  rw [heq] at hpmem
  obtain ⟨⟨d, hout⟩, -⟩ := mem_finish.mp hpmem
  -- `p` is below the leader, so some item of the walk pushed it
  rcases cases_tail (hyields.reach _ hout) with
    hroot | ⟨x, hx, hchild⟩
  · cases hroot
    exact absurd hround (lt_irrefl _)
  have hxrec := (reach_spec h.inv h.closed hl.mem rfl hx).1
  obtain ⟨-, hd, -, hentry⟩ := child_spec h.inv h.closed hxrec hchild
  simp only at hd hentry
  subst hd
  exact ⟨hentry, (mem_dagChildren hchild).2.2⟩

end

-- ==== the run

lemma Trace.earlier {P : Guard} (h : Trace cn P cs ks s) :
    ∀ k ∈ ks, k.state.lastCommittedRound ≤ s.lastCommittedRound := by
  induction h with
  | init => intro k hk; cases hk
  | insert _ _ _ ih => exact ih
  | @commit cs ks s l h hl ih =>
    intro k hk
    have hgrow : s.lastCommittedRound ≤ (recordAll cn s (cn.orderDag l s)).lastCommittedRound :=
      (le_recordAll h.inv.tops).1
    rcases List.mem_append.mp hk with hk | hk
    · exact le_trans (ih k hk) hgrow
    rw [List.mem_singleton.mp hk]
    exact hgrow

/-- A trace is causally complete exactly when every leader was flattened
with its unwritten ancestors at hand. -/
lemma Trace.complete_iff {P : Guard} (h : Trace cn P cs ks s)
    (hid : Identified cn all) (hsub : ∀ c ∈ cs, c ∈ all)
    (hfits : ∀ c ∈ all, c.round + cn.gcDepth < 2 ^ 64) :
    CausallyComplete cn all ks ↔ Retained cn all ks := by
  induction h with
  | init => exact ⟨fun _ => ⟨along_nil _⟩, fun _ => ⟨along_nil _⟩⟩
  | insert _ _ _ ih => exact ih fun c hc => hsub c (List.mem_append_left _ hc)
  | @commit cs ks s l h hl ih =>
    have hscene : Scene cn all cs ks s := ⟨hid, hsub, h.inv, h.parents, hfits, h.earlier⟩
    constructor
    · rintro ⟨hcomplete⟩
      obtain ⟨hks, hk⟩ := along_concat.mp hcomplete
      exact ⟨along_concat.mpr ⟨((ih hsub).mp ⟨hks⟩).along, hscene.retained_of_complete hl hk⟩⟩
    rintro ⟨hretained⟩
    obtain ⟨hks, hk⟩ := along_concat.mp hretained
    have hprev := (ih hsub).mpr ⟨hks⟩
    exact ⟨along_concat.mpr ⟨hprev.along, hscene.complete_of_retained hprev hl.mem hk⟩⟩

/-- A run in which the rounds received leave room for the garbage collection
depth is causally complete exactly when, whenever a leader is committed,
each of its delivered and unwritten ancestors within that depth is still in
the DAG and not at its author's last committed round. -/
theorem causally_complete_iff (cn : Consensus) (cs : List Certificate)
    (hfirst : Along (ParentFirst cn) [] cs) (hid : Identified cn cs)
    (hfits : ∀ c ∈ cs, c.round + cn.gcDepth < 2 ^ 64) :
    CausallyComplete cn cs (Node.run cn cs).commits
      ↔ Retained cn cs (Node.run cn cs).commits := by
  obtain ⟨pre, hpre, htrace, -⟩ :=
    run_trace (P := fun _ _ _ _ => True) (hfirst.imp fun _ _ h => ⟨h, trivial⟩)
  exact htrace.complete_iff hid (fun c hc => hpre.subset hc) hfits

lemma retained_of_all {ks : List Commit} (h : ∀ k ∈ ks, ∀ p ∈ all,
      k.state.entry p.round p.origin = some (p.digest cn.crypto, p)
      ∧ k.state.lastCommitted.lookup p.origin ≠ some p.round) :
    Retained cn all ks := by
  refine ⟨along_of_forall_mem (fun before k hk p hp _ => ?_) h⟩
  exact hk k (List.mem_append_right _ List.mem_cons_self) p hp.delivered

/-- The certificates up to the first commit. -/
def Trio.opening : List Certificate := [c1, a1, c2, a2, a3, a4, b5]

theorem causally_complete_iff_opening :
    (Node.run (task 50) opening).leaders = [c2]
    ∧ CausallyComplete (task 50) opening
      (Node.run (task 50) opening).commits := by
  have hfirst : Along (ParentFirst (task 50)) [] opening := by decide +kernel
  have hid : Identified (task 50) opening := by
    unfold Identified
    decide +kernel
  -- everything delivered is in the DAG, and nobody has committed
  have hall : ∀ k ∈ (Node.run (task 50) opening).commits, ∀ p ∈ opening,
      k.state.entry p.round p.origin = some (p.digest (task 50).crypto, p)
      ∧ k.state.lastCommitted.lookup p.origin ≠ some p.round := by
    decide +kernel
  have hfits : ∀ c ∈ opening, c.round + (task 50).gcDepth < 2 ^ 64 := by
    decide +kernel
  exact ⟨by decide +kernel, (causally_complete_iff _ _ hfirst hid hfits).mpr
    (retained_of_all hall)⟩

lemma earlyFirst_identified : Identified (Trio.task 50) Trio.earlyFirst := by
  unfold Identified
  decide +kernel

/-- `c1` is delivered first and pruned, unwritten, when its author's `c2` is
committed. Its child `b2` is written with the leader of round 4; `c1` never
is. -/
theorem causally_complete_fails : ¬ ∀ (cn : Consensus) (cs : List Certificate),
    Along (ParentFirst cn) [] cs → Identified cn cs → cs.Nodup →
      CausallyComplete cn cs (Node.run cn cs).commits := by
  intro h
  have hks := h (task 50) earlyFirst both_checked.2.2.2.2 earlyFirst_identified both_checked.2.2.2.1
  have hwritten : ∃ k ∈ (Node.run (task 50) earlyFirst).commits,
      b2 ∈ k.sequence ∧ k.state.lastCommittedRound ≤ c1.round + (task 50).gcDepth := by
    decide +kernel
  obtain ⟨k, hk, hb2, hlcr⟩ := hwritten
  have hedge : ParentIn (task 50) earlyFirst b2
      c1 := by
    unfold ParentIn
    decide +kernel
  have hdue : DueAncestor (task 50) earlyFirst k.state b2
      c1 :=
    ⟨by decide +kernel, by decide +kernel, Relation.TransGen.single hedge, hlcr⟩
  have hnot : c1 ∉ (Node.run (task 50) earlyFirst).commits.flatMap
        sequence := by
    decide +kernel
  exact hnot (hks.mem_of_due hk hb2 hdue)

end HetuEngine.Tusk
