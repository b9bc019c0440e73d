/-
What the consensus task is for, stated over the set of certificates that
exist rather than over the DAG some node holds.

The committee as a whole produces a set `S` of certificates. If no author
has two certificates in a round and every certificate has a quorum of
parents (`ValidSet`), `S` is a layered graph (`ValidSet.graph`). In it every
even round has at most one leader (`candidate`), and every leader has a log:
the leaders reached by going down from it, oldest first (`leaderLog`).
`leaderLog_extends` is the agreement of the protocol: a leader supported by a
validity set is in the log of every later leader, with its own log below it.

# The ledger

The output of the task, as a function of the leaders committed. A `Frontier`
says how far each author's certificates are committed. `flatten` is the
depth-first walk from a leader over the certificates of `S` that the
frontier has not passed and that are not beyond the garbage collection
depth; recording them moves the frontier. `ledger` does this for a list of
leaders. A longer list of leaders has a longer ledger (`ledger_append`).

What the nodes do is in the proofs: each holds the log of the last leader it
elected, and, as long as nothing arrives too late, writes the ledger of it.
-/
import HetuEngine.Lib.Layered
import HetuEngine.Tusk.Proofs.Commit

namespace HetuEngine.Tusk

open Lib Lib.Weight Narwhal Consensus

variable {cn : Consensus} {S : Set Certificate}

-- ==== the certificates

/-- A set of certificates as the primaries produce it: closed under parents,
at most one certificate for an author and round, digests that identify
certificates, and above round 0 parents of the previous round with the stake
of a quorum. -/
structure ValidSet (cn : Consensus) (S : Set Certificate) : Prop where
  genesis : ∀ g ∈ cn.genesis, g ∈ S
  unique : ∀ {c d}, c ∈ S → d ∈ S → c.origin = d.origin → c.round = d.round → c = d
  identified : ∀ {c d}, c ∈ S → d ∈ S → c.digest cn.crypto = d.digest cn.crypto → c = d
  parents : ∀ {c}, c ∈ S → ∃ ps : List Certificate,
    ps.map (Certificate.digest cn.crypto) = c.header.parents.toList
      ∧ (∀ q ∈ ps, q ∈ S ∧ q.round + 1 = c.round)
      ∧ (1 ≤ c.round → cn.committee.quorumThreshold
        ≤ weigh cn.committee.stake (ps.map Certificate.origin))

/-- What one node receives of the set: each certificate once, and after its
parents. -/
structure Delivery (cn : Consensus) (S : Set Certificate) (cs : List Certificate) : Prop where
  mem : ∀ c ∈ cs, c ∈ S
  once : cs.Nodup
  first : Along (ParentFirst cn) [] cs

def ValidSet.graph (hS : ValidSet cn S) : Layered Certificate PublicKey where
  mem c := c ∈ S
  layer := Certificate.round
  owner := Certificate.origin
  parent c q := q ∈ S ∧ q.digest cn.crypto ∈ c.header.parents
  parent_mem := fun _ h => h.1
  parent_layer := by
    intro c q hc h
    obtain ⟨ps, hdig, hps, -⟩ := hS.parents hc
    have hmem : q.digest cn.crypto ∈ ps.map (Certificate.digest cn.crypto) := by
      rw [hdig]
      exact h.2
    obtain ⟨p, hp, heq⟩ := List.mem_map.mp hmem
    rw [← hS.identified (hps p hp).1 h.1 heq]
    exact (hps p hp).2
  unique := hS.unique

/-- Every certificate above round 0 has a quorum of parents. -/
lemma ValidSet.quorate (hS : ValidSet cn S) :
    hS.graph.Quorate cn.committee.stake cn.committee.quorumThreshold := by
  intro c hc hround
  obtain ⟨ps, hdig, hps, hquorum⟩ := hS.parents hc
  refine ⟨ps, fun q hq => ⟨(hps q hq).1, ?_⟩, ?_, hquorum hround⟩
  · show q.digest cn.crypto ∈ c.header.parents.toList
    rw [← hdig]
    exact List.mem_map_of_mem hq
  -- two parents of one author would be one certificate
  have hnd : (ps.map (Certificate.digest cn.crypto)).Nodup := by
    rw [hdig]
    exact c.header.parents.sorted.imp fun h => ne_of_lt h
  have hpair := List.pairwise_map.mp hnd
  refine List.pairwise_map.mpr (hpair.imp_of_mem fun hp hq hne ho => ?_)
  have hr := (hps _ hp).2.trans (hps _ hq).2.symm
  exact hne (congrArg _ (hS.unique (hps _ hp).1 (hps _ hq).1 ho (by omega)))

-- ==== the log

open Classical in
/-- The certificate of a round's leader, if there is one. -/
noncomputable def candidate (cn : Consensus) (S : Set Certificate) (r : Nat) : Option Certificate :=
  if h : ∃ c, c ∈ S ∧ c.round = r ∧ cn.leaderKey r = .ok c.origin then some h.choose
  else none

variable {c : Certificate} {l l' : Certificate} {q : Certificate}

lemma candidate_eq_some {r : Nat} (h : candidate cn S r = some c) :
    c ∈ S ∧ c.round = r ∧ cn.leaderKey r = .ok c.origin := by
  unfold candidate at h
  split at h
  next hex =>
    cases h
    exact hex.choose_spec
  next => cases h

lemma ValidSet.candidate_of_mem (hS : ValidSet cn S) (hc : c ∈ S)
    (hkey : cn.leaderKey c.round = .ok c.origin) :
    candidate cn S c.round = some c := by
  have hex : ∃ d, d ∈ S ∧ d.round = c.round
      ∧ cn.leaderKey c.round = .ok d.origin := ⟨c, hc, rfl, hkey⟩
  unfold candidate
  rw [dif_pos hex]
  obtain ⟨hmem, hr, hk⟩ := hex.choose_spec
  have ho := Except.ok.inj (hk.symm.trans hkey)
  exact congrArg some (hS.unique hmem hc ho hr)

/-- The leaders below a leader down to round `lo`, newest first. -/
noncomputable def below (hS : ValidSet cn S) (lo : Nat) (l : Certificate) : List Certificate :=
  descend hS.graph.Reaches (candidate cn S) (leaderRounds lo (l.round - 2)) l

/-- The log of a leader: the leaders reached from it, oldest first. -/
noncomputable def leaderLog (hS : ValidSet cn S) (l : Certificate) : List Certificate :=
  (l :: below hS 2 l).reverse

/-- The even rounds from 2 on, cut at one of them. -/
lemma leaderRounds_split {m hi : Nat} (hm : 2 ≤ m) (hle : m ≤ hi)
    (hpar : m % 2 = 0 ∧ hi % 2 = 0) :
    leaderRounds 2 hi
      = leaderRounds (m + 2) hi ++ m :: leaderRounds 2 (m - 2) := by
  unfold leaderRounds
  have hlen : (hi + 2 - 2) / 2 = (hi + 2 - (m + 2)) / 2 + (1 + (m - 2 + 2 - 2) / 2) := by omega
  rw [hlen, List.range_add, List.map_append, List.map_map]
  congr 1
  rw [Nat.add_comm 1, List.range_succ_eq_map, List.map_cons, List.map_map]
  congr 1
  · simp only [Function.comp_apply]
    omega
  refine List.map_congr_left fun i _ => ?_
  simp only [Function.comp_apply]
  omega

/-- Enough of the next round has the certificate as a parent. -/
def Supported (hS : ValidSet cn S) (l : Certificate) : Prop :=
  hS.graph.Supported cn.committee.stake cn.committee.validityThreshold l

variable {hS : ValidSet cn S} {f : Frontier}

/-- A supported certificate is reached from two rounds up on. -/
lemma Supported.reaches (hstake : cn.committee.totalStake < 2 ^ 31)
    (hl : Supported hS l) (hc : c ∈ S) (hround : l.round + 2 ≤ c.round) :
    hS.graph.Reaches c l := by
  refine Layered.Supported.reaches (fun as bs has hbs hq hv =>
      Committee.exists_common_of_thresholds hstake has hbs hq hv)
    cn.committee.quorumThreshold_pos hS.quorate hl
    (n := c.round - l.round - 2) hc ?_
  show c.round = l.round + 2 + (c.round - l.round - 2)
  omega

section

variable (hstake : cn.committee.totalStake < 2 ^ 31) (hl : l ∈ S)
    (hkey : cn.leaderKey l.round = .ok l.origin) (heven : l.round % 2 = 0) (hsup : Supported hS l)
    (hl' : l' ∈ S) (heven' : l'.round % 2 = 0) (hpos : 2 ≤ l.round) (hlt : l.round < l'.round)

include hstake hl hkey heven hsup hl' heven' hpos hlt

/-- The log of a later leader passes through a supported leader. -/
lemma below_through :
    below hS 2 l' = below hS (l.round + 2) l' ++ l :: below hS 2 l := by
  have hsplit := leaderRounds_split hpos (show l.round ≤ l'.round - 2 by omega) ⟨heven, by omega⟩
  have hreach : ∀ y ∈ l' :: below hS (l.round + 2) l', hS.graph.Reaches y l := by
    intro y hy
    rcases List.mem_cons.mp hy with rfl | hy
    · exact hsup.reaches hstake hl' (by omega)
    obtain ⟨r, hr, hc⟩ := mem_descend hy
    obtain ⟨hmem, hyr, -⟩ := candidate_eq_some hc
    have := mem_leaderRounds hr
    exact hsup.reaches hstake hmem (by omega)
  show descend _ _ (leaderRounds 2 (l'.round - 2)) l' = _
  rw [hsplit]
  exact descend_through (hS.candidate_of_mem hl hkey) hreach

/-- Agreement: the log of a supported leader is the beginning of the log of
every later leader. -/
lemma leaderLog_extends :
    leaderLog hS l'
      = leaderLog hS l ++ (l' :: below hS (l.round + 2) l').reverse := by
  unfold leaderLog
  rw [below_through hstake hl hkey heven hsup hl' heven' hpos hlt, ← List.reverse_append]
  rfl

end

-- ==== the ledger

/-- How far certificates are committed: the last committed round of each
author, and the last committed round. -/
structure Frontier where
  committed : PublicKey → Option Nat
  round : Nat

def State.frontier (s : State) : Frontier where
  committed n := s.lastCommitted.lookup n
  round := s.lastCommittedRound

def Frontier.record (f : Frontier) (c : Certificate) : Frontier where
  committed n :=
    if n = c.origin then some (max ((f.committed n).getD 0) c.round)
    else f.committed n
  round := max f.round c.round

/-- The frontier has not passed the certificate, and the certificate is not
beyond the garbage collection depth. -/
def Frontier.Due (gcDepth : Nat) (f : Frontier) (c : Certificate) : Prop :=
  (∀ m, f.committed c.origin = some m → m < c.round) ∧ f.round ≤ c.round + gcDepth

open Classical in
noncomputable def dueParent (cn : Consensus) (S : Set Certificate)
    (f : Frontier) (d : Digest) : Option (Digest × Certificate) :=
  if h : ∃ q, q ∈ S ∧ q.digest cn.crypto = d ∧ f.Due cn.gcDepth q then some (d, h.choose)
  else none

/-- The due parents of an item, in digest order. -/
noncomputable def dueChildren (cn : Consensus)
    (S : Set Certificate) (f : Frontier) (x : Digest × Certificate) : List (Digest × Certificate) :=
  x.2.header.parents.toList.filterMap (dueParent cn S f)

open Classical in
/-- A leader's part of the ledger: the walk over due certificates, sorted by
round. -/
noncomputable def flatten (cn : Consensus) (S : Set Certificate)
    (f : Frontier) (l : Certificate) : List Certificate :=
  if h : ∃ out, Worklist.Yields Prod.fst (dueChildren cn S f) (l.digest cn.crypto, l) out then
    (h.choose.map Prod.snd).insertionSort fun a b => a.round ≤ b.round
  else []

noncomputable def ledgerStep (cn : Consensus) (S : Set Certificate)
    (x : List Certificate × Frontier) (l : Certificate) : List Certificate × Frontier :=
  (x.1 ++ flatten cn S x.2 l, (flatten cn S x.2 l).foldl Frontier.record x.2)

/-- The ledger of a list of leaders, with the frontier it ends at. -/
noncomputable def ledger (cn : Consensus) (S : Set Certificate)
    (ls : List Certificate) : List Certificate × Frontier :=
  ls.foldl (ledgerStep cn S) ([], (State.new cn.crypto cn.genesis).frontier)

lemma ledger_concat (ls : List Certificate) (l : Certificate) :
    ledger cn S (ls ++ [l]) = ledgerStep cn S (ledger cn S ls) l :=
  List.foldl_concat ..

lemma ledger_append (ls : List Certificate) :
    ∀ ms, (ledger cn S ls).1 <+: (ledger cn S (ls ++ ms)).1 := by
  intro ms
  induction ms using List.reverseRecOn with
  | nil => exact ⟨[], by rw [List.append_nil, List.append_nil]⟩
  | append_singleton ms l ih =>
    rw [← List.append_assoc, ledger_concat]
    exact ih.trans ⟨_, rfl⟩

/-- A due certificate of the set is what its digest refers to. -/
lemma ValidSet.dueParent_of_due (hS : ValidSet cn S) (hq : q ∈ S)
    (hdue : f.Due cn.gcDepth q) :
    dueParent cn S f (q.digest cn.crypto) = some (q.digest cn.crypto, q) := by
  have hex : ∃ q', q' ∈ S ∧ q'.digest cn.crypto = q.digest cn.crypto
      ∧ f.Due cn.gcDepth q' := ⟨q, hq, rfl, hdue⟩
  unfold dueParent
  rw [dif_pos hex]
  obtain ⟨hmem, hdig, -⟩ := hex.choose_spec
  rw [hS.identified hmem hq hdig]

lemma ValidSet.dueParent_of_not_due (hS : ValidSet cn S) (hq : q ∈ S)
    (hdue : ¬ f.Due cn.gcDepth q) :
    dueParent cn S f (q.digest cn.crypto) = none := by
  unfold dueParent
  rw [dif_neg]
  rintro ⟨q', hq', hdig, hdue'⟩
  rw [hS.identified hq' hq hdig] at hdue'
  exact hdue hdue'

lemma flatten_eq {out : List (Digest × Certificate)}
    (h : Worklist.Yields Prod.fst (dueChildren cn S f) (l.digest cn.crypto, l)
      out) :
    flatten cn S f l
      = (out.map Prod.snd).insertionSort fun a b => a.round ≤ b.round := by
  have hex : ∃ out, Worklist.Yields Prod.fst (dueChildren cn S f)
      (l.digest cn.crypto, l) out := ⟨out, h⟩
  unfold flatten
  rw [dif_pos hex, hex.choose_spec.unique h]

end HetuEngine.Tusk
