/-
The consensus task does not abort.

# The argument

A certificate of round `R` was received after one of round `R - 1`, and so
on down to the genesis, so every round up to `R` has been seen
(`history`). The rounds the two `expect` look up lie above the last
committed round, and nothing above it is ever pruned: an author's last
committed round is at most the overall one, and the garbage collection only
reaches below it (`lookup_above`).

# Where it does abort

The cleanup keeps round `r` when `r + gc_depth >= last_committed_round`, a
`u64` sum. When it wraps, the cleanup takes rounds above the last committed
one, and the next lookup fails. The condition below is that the sum does not
wrap for any certificate received; `never_aborts_fails` is a run where it
does.
-/
import HetuEngine.Tusk.Proofs.Commit

namespace HetuEngine.Tusk

open Lib Lib.Weight Narwhal Consensus Certificate

variable {cn : Consensus}

-- ==== the history

/-- What the argument needs of a certificate received after `before`. -/
structure Fed (cn : Consensus) (before : List Certificate) (c : Certificate) : Prop where
  first : ParentFirst cn before c
  parents : 1 ≤ c.round → c.header.parents.toList ≠ []
  committee : 1 ≤ c.round → cn.committee.authorities.entries ≠ []
  fits : c.round + cn.gcDepth < 2 ^ 64

abbrev fedGuard (cn : Consensus) : Guard := fun cs _ _ c => Fed cn cs c

variable {cs : List Certificate} {ks : List Commit} {s : State} {l : Certificate}

lemma Trace.fed (h : Trace cn (fedGuard cn) cs ks s) :
    ∀ c ∈ cs, (1 ≤ c.round → c.header.parents.toList ≠ [])
      ∧ c.round + cn.gcDepth < 2 ^ 64 := by
  induction h with
  | init => intro c hc; cases hc
  | insert _ _ hP ih =>
    intro c' hc'
    rcases List.mem_append.mp hc' with hc' | hc'
    · exact ih c' hc'
    rw [List.mem_singleton.mp hc']
    exact ⟨hP.parents, hP.fits⟩
  | commit _ _ ih => exact ih

/-- Every round up to that of a received certificate has been seen. -/
lemma Trace.history (h : Trace cn (fedGuard cn) cs ks s) :
    ∀ {k : Nat} {c : Certificate}, c ∈ cn.genesis ++ cs → k ≤ c.round →
      ∃ q ∈ cn.genesis ++ cs, q.round + k = c.round := by
  intro k
  induction k with
  | zero => intro c hc _; exact ⟨c, hc, rfl⟩
  | succ k ih =>
    intro c hc hk
    have hne : c.header.parents.toList ≠ [] := by
      rcases List.mem_append.mp hc with hg | hcs
      · have := genesis_round hg
        omega
      exact (h.fed c hcs).1 (by omega)
    obtain ⟨d, hd⟩ := List.exists_mem_of_ne_nil _ hne
    obtain ⟨q, hq, -, hqr⟩ := h.parents c hc d hd
    obtain ⟨q', hq', hr⟩ := ih hq (by omega)
    exact ⟨q', hq', by omega⟩

-- ==== the loops

/-- The loop of `linked` finds every round it looks up. -/
lemma parentsDown_ok (dag : Dag) (lo : Nat) :
    ∀ {k : Nat}, (∀ i < k, ∃ m, dag.lookup (lo + i) = some m) →
    ∀ ps, ∃ qs, parentsDown dag lo k ps = .ok qs := by
  intro k
  induction k with
  | zero => intro _ ps; exact ⟨ps, rfl⟩
  | succ k ih =>
    intro h ps
    obtain ⟨m, hm⟩ := h k (Nat.lt_succ_self k)
    obtain ⟨qs, hqs⟩ := ih (fun i hi => h i (Nat.lt_succ_of_lt hi)) (parentsIn m ps)
    refine ⟨qs, ?_⟩
    unfold parentsDown
    rw [hm]
    exact hqs

lemma linked_ok (dag : Dag) (leader prev : Certificate)
    (h : ∀ r, prev.round ≤ r → r < leader.round → ∃ m, dag.lookup r = some m) :
    ∃ b, linked leader prev dag = .ok b := by
  obtain ⟨qs, hqs⟩ := parentsDown_ok dag prev.round (k := leader.round - prev.round)
    (fun i hi => h _ (by omega) (by omega)) [leader]
  unfold linked
  rw [hqs]
  exact ⟨_, rfl⟩

/-- The loop of `order_leaders` goes through when the DAG has every round
from `lo` to the leader. -/
lemma orderLeadersFrom_ok (lo : Nat) (hkey : ∀ r, ∃ n, cn.leaderKey r = .ok n)
    (hround : ∀ {r n x}, s.entry r n = some x → x.2.round = r) :
    ∀ {rs : List Nat} {leader : Certificate} {acc : List Certificate},
    rs.Pairwise (· > ·) → (∀ r ∈ rs, lo ≤ r ∧ r < leader.round) →
    (∀ r, lo ≤ r → r < leader.round → ∃ m, s.dag.lookup r = some m) →
    ∃ out, cn.orderLeadersFrom s.dag rs leader acc = .ok out := by
  intro rs
  induction rs with
  | nil => intro leader acc _ _ _; exact ⟨acc, rfl⟩
  | cons r rs ih =>
    intro leader acc hpair hrs hdag
    obtain ⟨hgt, hpair⟩ := List.pairwise_cons.mp hpair
    have hrs' : ∀ r' ∈ rs, lo ≤ r' ∧ r' < leader.round := fun r' hr' =>
      hrs r' (List.mem_cons_of_mem _ hr')
    obtain ⟨n, hn⟩ := hkey r
    obtain ⟨hlo, hlt⟩ := hrs r (List.mem_cons_self ..)
    unfold orderLeadersFrom
    rw [leader_of_key hn]
    cases hx : s.entry r n with
    | none => exact ih hpair hrs' hdag
    | some x =>
      obtain ⟨d, prev⟩ := x
      have hprev : prev.round = r := hround hx
      obtain ⟨b, hb⟩ := linked_ok s.dag leader prev fun r' hge hlt' => hdag r' (by omega) hlt'
      simp only [bind, Except.bind, hb]
      cases b with
      | false => exact ih hpair hrs' hdag
      | true =>
        refine ih hpair (fun r' hr' => ?_) fun r' hge hlt' => ?_
        · have := hgt r' hr'
          exact ⟨(hrs' r' hr').1, by omega⟩
        exact hdag r' hge (by omega)

variable {c : Certificate}

lemma receive_ok (h : Trace cn (fedGuard cn) cs ks s)
    (hc : Fed cn cs c) : ∃ x, cn.receive s c = .ok x := by
  have hins : Trace cn (fedGuard cn) (cs ++ [c]) ks (cn.insert s c) := h.insert hc.first hc
  unfold Consensus.receive
  rcases Nat.eq_zero_or_pos c.round with h0 | hpos
  · -- round 0: the round below wraps to an odd number
    have hodd : u64Sub c.round 1 % 2 ≠ 0 := by
      rw [h0]
      decide
    unfold tryCommit
    rw [if_pos (.inl hodd)]
    exact ⟨_, rfl⟩
  rw [show u64Sub c.round 1 = c.round - 1 from wordSub_of_le hpos]
  have hmem : c ∈ cn.genesis ++ (cs ++ [c]) :=
    List.mem_append_right _ (List.mem_append_right _ (List.mem_singleton.mpr rfl))
  -- every round between the last committed one and `c` is in the DAG
  have hdag : ∀ r, (cn.insert s c).lastCommittedRound < r →
      r ≤ c.round → ∃ m, (cn.insert s c).dag.lookup r = some m := by
    intro r habove hle
    obtain ⟨q, hq, hqr⟩ := hins.history hmem (show c.round - r ≤ c.round by omega)
    have hqr' : q.round = r := by omega
    have hfits := hc.fits
    subst hqr'
    obtain ⟨x, hx⟩ := hins.inv.entry_above hq habove (by omega)
    obtain ⟨m, hm, -⟩ := Option.bind_eq_some_iff.mp hx
    exact ⟨m, hm⟩
  have hkey : ∀ r, ∃ n, cn.leaderKey r = .ok n := leaderKey_ok (hc.committee hpos)
  refine tryCommit_ok hkey (fun d l habove hhigh _ => ?_) fun d l m hel => ?_
  · exact hdag _ (by omega) (by omega)
  obtain ⟨hl, hlr⟩ := hel.isLeader hins.inv
  have habove := hl.above
  have heven := hl.even
  have hhigh := hel.high
  unfold Consensus.orderLeaders
  rw [orderLeaders_rounds hl.above hl.even]
  refine orderLeadersFrom_ok ((cn.insert s c).lastCommittedRound + 2) hkey
    (fun hx => (hins.inv.spec hx).2.1)
    (leaderRounds_pairwise _ _) (fun r hr => ?_) fun r hge hlt => ?_
  · obtain ⟨h1, h2, -⟩ := mem_leaderRounds hr
    exact ⟨h1, by omega⟩
  exact hdag r (by omega) (by omega)

lemma run_fed :
    ∀ {cs : List Certificate}, Along (Fed cn) [] cs →
      (Node.run cn cs).aborted = none
        ∧ Trace cn (fedGuard cn) cs (Node.run cn cs).commits
          (Node.run cn cs).state := by
  intro cs
  induction cs using List.reverseRecOn with
  | nil => intro _; exact ⟨rfl, Trace.init⟩
  | append_singleton cs c ih =>
    intro h
    obtain ⟨hcs, hc⟩ := along_concat.mp h
    obtain ⟨ha, htrace⟩ := ih hcs
    rw [run_concat]
    rcases step_cases cn (Node.run cn cs) c with
      ⟨e, ha', -⟩ | ⟨-, e, hr, -⟩ | ⟨-, s, ks, hr, heq⟩
    · rw [ha] at ha'
      cases ha'
    · obtain ⟨x, hx⟩ := receive_ok htrace hc
      rw [hx] at hr
      cases hr
    rw [heq]
    exact ⟨ha, htrace.receive hc.first hc hr⟩

-- ==== the last committed round

lemma le_recordAll {xs : List Certificate} (hs : Tops s) :
    s.lastCommittedRound ≤ (recordAll cn s xs).lastCommittedRound
    ∧ ∀ x ∈ xs, x.round ≤ (recordAll cn s xs).lastCommittedRound := by
  induction xs generalizing s with
  | nil => exact ⟨le_refl _, fun x hx => by cases hx⟩
  | cons x xs ih =>
    have hup := lastCommittedRound_update hs x cn.gcDepth
    obtain ⟨hle, hall⟩ := ih (tops_update s x cn.gcDepth)
    rw [hup] at hle
    refine ⟨le_trans (le_max_left _ _) hle, fun y hy => ?_⟩
    rcases List.mem_cons.mp hy with rfl | hy
    · exact le_trans (le_max_right _ _) hle
    exact hall y hy

/-- A leader within the garbage collection depth is part of its own
sub-DAG. -/
lemma leader_mem_orderDag (h : s.Recent cn.gcDepth l.round) :
    l ∈ cn.orderDag l s := by
  obtain ⟨out, hyields, heq⟩ := orderDag_eq cn s l
  rw [heq]
  exact mem_finish.mpr ⟨⟨_, hyields.root_mem⟩, h⟩

/-- Flattening a leader makes its round the last committed one. -/
lemma IsLeader.recordAll_eq (hl : IsLeader cn cs s l) (hinv : Inv cn cs s)
    (hpar : ∀ c ∈ cn.genesis ++ cs, ParentFirst cn cs c)
    (hfits : l.round + cn.gcDepth < 2 ^ 64) :
    (recordAll cn s (cn.orderDag l s)).lastCommittedRound = l.round := by
  have habove := hl.above
  apply Nat.le_antisymm
  · exact recordAll_le hinv.tops (by omega) fun x hx => (orderDag_mem hinv hpar hl.mem hx).2
  refine (le_recordAll hinv.tops).2 l (leader_mem_orderDag ?_)
  exact (State.recent_of_fits hfits).mpr (by omega)

lemma IsLeader.fits (h : Trace cn (fedGuard cn) cs ks s)
    (hl : IsLeader cn cs s l) : l.round + cn.gcDepth < 2 ^ 64 := by
  rcases List.mem_append.mp hl.mem with hg | hcs
  · have := genesis_round hg
    have := hl.above
    omega
  exact (h.fed l hcs).2

/-- The last committed round is that of the leader flattened last, or 0. -/
lemma Trace.lastCommittedRound_eq (h : Trace cn (fedGuard cn) cs ks s) :
    s.lastCommittedRound = ks.getLast?.elim 0 fun k => k.leader.round := by
  induction h with
  | init => rfl
  | insert _ _ _ ih => exact ih
  | @commit cs ks s l h hl ih =>
    rw [hl.recordAll_eq h.inv h.parents (hl.fits h), List.getLast?_concat]
    rfl

lemma Trace.leaders_even {P : Guard} (h : Trace cn P cs ks s) :
    ∀ k ∈ ks, k.leader.round % 2 = 0
      ∧ k.state.lastCommittedRound < k.leader.round := by
  induction h with
  | init => intro k hk; cases hk
  | insert _ _ _ ih => exact ih
  | commit _ hl ih =>
    intro k hk
    rcases List.mem_append.mp hk with hk | hk
    · exact ih k hk
    rw [List.mem_singleton.mp hk]
    exact ⟨hl.even, hl.above⟩

section

variable (h : Trace cn (fedGuard cn) cs ks s)

include h

lemma Trace.leaders_sorted :
    (ks.map Commit.leader).Pairwise (fun a b => a.round < b.round)
      ∧ ∀ k ∈ ks, k.leader.round ≤ s.lastCommittedRound := by
  induction h with
  | init => exact ⟨List.Pairwise.nil, fun k hk => by cases hk⟩
  | insert _ _ _ ih => exact ih
  | @commit cs ks s l h hl ih =>
    obtain ⟨hpair, hle⟩ := ih
    have habove := hl.above
    rw [hl.recordAll_eq h.inv h.parents (hl.fits h), List.map_append]
    constructor
    · refine List.pairwise_append.mpr ⟨hpair, List.pairwise_singleton _ _, fun a ha b hb => ?_⟩
      obtain ⟨k, hk, rfl⟩ := List.mem_map.mp ha
      rw [show b = l from List.mem_singleton.mp hb]
      have := hle k hk
      omega
    intro k hk
    rcases List.mem_append.mp hk with hk | hk
    · have := hle k hk
      omega
    rw [List.mem_singleton.mp hk]

lemma Trace.lastCommittedRound_even :
    s.lastCommittedRound = 0
      ∨ s.lastCommittedRound % 2 = 0
        ∧ ∃ k ∈ ks, k.leader.round = s.lastCommittedRound := by
  have heq := h.lastCommittedRound_eq
  cases hlast : ks.getLast? with
  | none =>
    rw [hlast] at heq
    exact .inl heq
  | some k =>
    rw [hlast] at heq
    have hk : k ∈ ks := List.mem_of_getLast? hlast
    exact .inr ⟨heq ▸ (h.leaders_even k hk).1, k, hk, heq.symm⟩

/-- Every leader was at least two rounds above the last committed round when
it was flattened. -/
lemma Trace.leaders_range :
    ∀ k ∈ ks, k.state.lastCommittedRound + 2 ≤ k.leader.round := by
  induction h with
  | init => intro k hk; cases hk
  | insert _ _ _ ih => exact ih
  | @commit cs ks s l h hl ih =>
    intro k hk
    rcases List.mem_append.mp hk with hk | hk
    · exact ih k hk
    rw [List.mem_singleton.mp hk]
    have habove := hl.above
    have heven := hl.even
    simp only
    rcases h.lastCommittedRound_even with h0 | ⟨h0, -⟩ <;> omega

end

-- ==== the main result

/-- The parents of a certificate among those received before it. -/
def parentsOf (cn : Consensus) (before : List Certificate) (c : Certificate) : List Certificate :=
  c.header.parents.toList.filterMap fun d =>
    (cn.genesis ++ before).find? fun q => q.digest cn.crypto = d

/-- The parents of a certificate together have the stake of a quorum. -/
def QuorumParents (cn : Consensus) (before : List Certificate) (c : Certificate) : Prop :=
  cn.committee.quorumThreshold ≤ weigh cn.committee.stake
      ((parentsOf cn before c).map Certificate.origin)

instance (cn : Consensus) (before : List Certificate) (c : Certificate) :
    Decidable (QuorumParents cn before c) :=
  inferInstanceAs (Decidable (_ ≤ _))

lemma QuorumParents.nonempty {before : List Certificate}
    (h : QuorumParents cn before c) :
    c.header.parents.toList ≠ [] ∧ cn.committee.authorities.entries ≠ [] := by
  have hpos := cn.committee.quorumThreshold_pos
  have hle : 1 ≤ weigh cn.committee.stake
      ((parentsOf cn before c).map origin) := le_trans hpos h
  constructor
  · intro hnil
    unfold parentsOf at hle
    rw [hnil] at hle
    simp at hle
  exact Committee.entries_ne_nil_of_weigh hle

/-- A stream the task can be fed: rounds from 1 on, parents first, and a
quorum of them. -/
structure QuorumFed (cn : Consensus) (before : List Certificate) (c : Certificate) : Prop where
  round : 1 ≤ c.round
  first : ParentFirst cn before c
  quorum : QuorumParents cn before c

instance (cn : Consensus) (before : List Certificate) (c : Certificate) :
    Decidable (QuorumFed cn before c) :=
  decidable_of_iff (1 ≤ c.round ∧ ParentFirst cn before c ∧ QuorumParents cn before c)
    ⟨fun h => ⟨h.1, h.2.1, h.2.2⟩, fun h => ⟨h.1, h.2, h.3⟩⟩

/-- A run that went well: no lookup failed, the last committed round is 0 or
the even round of a leader, the range of `order_leaders` did not underflow,
and every walk of `order_dag` emptied its buffer. -/
structure Sound (cn : Consensus) (node : Node) : Prop where
  running : node.aborted = none
  even : node.state.lastCommittedRound = 0 ∨ node.state.lastCommittedRound % 2 = 0
    ∧ ∃ l ∈ node.leaders, l.round = node.state.lastCommittedRound
  range : ∀ k ∈ node.commits, k.state.lastCommittedRound + 2 ≤ k.leader.round
  ends : ∀ k ∈ node.commits, (Worklist.run Prod.fst (dagChildren k.state)
    (k.leader.digest cn.crypto, k.leader)
    (dagSize k.state.dag + 1)).buffer = []

/-- The task never aborts while the rounds it receives leave room for the
garbage collection depth. -/
theorem never_aborts (cn : Consensus) (cs : List Certificate)
    (h : Along (QuorumFed cn) [] cs)
    (hfits : ∀ c ∈ cs, c.round + cn.gcDepth < 2 ^ 64) :
    Sound cn (Node.run cn cs) := by
  have hfed : Along (Fed cn) [] cs := by
    refine Along.imp (fun pre c hc => ?_) (h.and_mem hfits)
    obtain ⟨hq, hfit⟩ := hc
    obtain ⟨hpar, hcom⟩ := hq.quorum.nonempty
    exact ⟨hq.first, fun _ => hpar, fun _ => hcom, hfit⟩
  obtain ⟨hrun, htrace⟩ := run_fed hfed
  refine ⟨hrun, ?_, htrace.leaders_range, fun k _ => orderDag_ends _ _ (le_refl _)⟩
  rcases htrace.lastCommittedRound_even with h0 | ⟨h0, k, hk, hkr⟩
  · exact .inl h0
  exact .inr ⟨h0, k.leader, List.mem_map_of_mem hk, hkr⟩

-- ==== a small committee

namespace Trio

/-- A hash that spells its input in base 257: the certificates below have
distinct digests. -/
def spell : Crypto where
  sha512 bytes := Fin.ofNat _ (bytes.foldl (fun n b => 257 * n + b.toNat + 1) 0)
  sign _ _ := 0
  verify _ _ _ := true
  verifyBatch _ _ := true

/-- Three authorities, `a` with stake 10, `b` and `c` with stake 1: `a` is
a quorum by itself, and `c` and `b` lead rounds 2 and 4. -/
def committee : Committee where
  authorities :=
    { entries :=
        [(0, ⟨10, [0], by decide⟩), (1, ⟨1, [0], unit_stake_lt⟩), (2, ⟨1, [0], unit_stake_lt⟩)]
      sorted := by decide }

def task (gcDepth : Nat) : Consensus := ⟨spell, committee, gcDepth⟩

def certOf (author : PublicKey) (round : Fin (2 ^ 64))
    (parents : List Certificate) : Certificate where
  header := Header.new spell author round BTreeMap.empty
    (BTreeSet.ofList (parents.map (Certificate.digest spell)))
  votes := []

/-- The certificates of `a`: a chain, of which the third also has the
certificate of `c` below as a parent. -/
def a1 : Certificate := certOf 0 1 (Certificate.genesis committee)

def c2 : Certificate := certOf 2 2 [a1]

def a2 : Certificate := certOf 0 2 [a1]

def a3 : Certificate := certOf 0 3 [a2, c2]

def a4 : Certificate := certOf 0 4 [a3]

def a5 : Certificate := certOf 0 5 [a4]

def a6 : Certificate := certOf 0 6 [a5]

def a7 : Certificate := certOf 0 7 [a6]

def b4 : Certificate := certOf 1 4 [a3]

def lateLeader : List Certificate := [a1, c2, a2, a3, a4, a5, a6, b4, a7]

end Trio

theorem never_aborts_lateLeader :
    (Node.run (Trio.task 50) Trio.lateLeader).leaders = [Trio.c2]
      ∧ Sound (Trio.task 50) (Node.run (Trio.task 50) Trio.lateLeader) :=
  ⟨by decide +kernel, never_aborts _ _ (by decide +kernel) (by decide +kernel)⟩

/-- With a garbage collection depth of 2⁶⁴ - 4 the cleanup after the first
commit, of round 2, drops rounds 4 and 5: `4 + gc_depth` wraps to 0. When
the leader of round 4 arrives and is looked up for round 7, round 5 is
gone. -/
theorem never_aborts_fails : ¬ ∀ (cn : Consensus) (cs : List Certificate),
    Along (QuorumFed cn) [] cs → Sound cn (Node.run cn cs) := by
  intro h
  have hrun := (h (Trio.task (2 ^ 64 - 4)) Trio.lateLeader (by decide +kernel)).running
  exact absurd hrun (by decide +kernel)

end HetuEngine.Tusk
