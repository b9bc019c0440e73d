/-
Leader agreement: every node's leaders are the log of the last leader it
elected, so two nodes' leaders are prefixes of one another.

# From the DAG to the set

Above the last committed round a node's DAG holds exactly what the node
received (`View.entry_above`), and what it received is closed under parents
(`View.reaches_mem`). So there `linked` decides `Reaches` (`linked_iff`) and
`order_leaders` returns the leaders the set has below the elected one, down
to the last committed round (`orderLeaders_eq`). A leader the set has and
the node does not is no exception: nothing the node has reaches it.

# From one turn to the run

The leader elected is supported (`Elected.supported`). The leaders committed
so far are the log of the last one elected, and `leaderLog_extends` says
that the leaders of the new turn complete it to the log of the new one
(`run_log`).

# Where it fails

Support and quorum need to overlap, and the thresholds are computed in
`u32`: from a total stake of 2³¹ on, `2 * total_votes` wraps and a quorum
can be as small as one vote. `leader_agreement_fails` is a committee of
four where two nodes commit different leaders.
-/
import HetuEngine.Tusk.Proofs.NoAbort
import HetuEngine.Tusk.Spec

namespace HetuEngine.Tusk

open Lib Lib.Weight Fallible Narwhal Consensus List Certificate Relation.ReflTransGen Node HashMap

variable {cn : Consensus} {S : Set Certificate}

-- ==== what is held

/-- A node that received `received`, all from `S`, and is in state `s`. -/
structure View (cn : Consensus) (S : Set Certificate)
    (received : List Certificate) (s : State) : Prop where
  inv : Inv cn received s
  sub : ∀ c ∈ cn.genesis ++ received, c ∈ S
  closed : ∀ c ∈ cn.genesis ++ received, ParentFirst cn received c
  fits : ∀ c ∈ received, c.round + cn.gcDepth < 2 ^ 64

variable {received : List Certificate} {s : State} {c q : Certificate} {r : Nat}
  {leader : Certificate} {ks : List Commit} {l l' : Certificate}

section

variable (hS : ValidSet cn S) (hv : View cn S received s) (hc : c ∈ cn.genesis ++ received)

include hS hv hc

/-- A certificate above the last committed round is at its place. -/
lemma View.entry_above (habove : s.lastCommittedRound < c.round) :
    s.entry c.round c.origin = some (c.digest cn.crypto, c) := by
  have hfits : c.round + cn.gcDepth < 2 ^ 64 := by
    rcases mem_append.mp hc with hg | hr
    · have := genesis_round hg
      omega
    exact hv.fits c hr
  obtain ⟨x, hx⟩ := hv.inv.entry_above hc habove hfits
  obtain ⟨hd, hr, ho, hmem⟩ := hv.inv.spec hx
  have heq : x.2 = c := hS.unique (hv.sub _ hmem) (hv.sub _ hc) ho hr
  rw [hx]
  refine congrArg some (Prod.ext ?_ heq)
  rw [hd, heq]

lemma View.parent_mem (hq : hS.graph.parent c q) :
    q ∈ cn.genesis ++ received := by
  obtain ⟨q', hq', hd, -⟩ := hv.closed c hc _ hq.2
  rw [← hS.identified (hv.sub _ hq') hq.1 hd]
  exact hq'

lemma View.reaches_mem (h : hS.graph.Reaches c q) :
    q ∈ cn.genesis ++ received := by
  induction h with
  | refl => exact hc
  | tail _ hpar ih => exact hv.parent_mem hS ih hpar

end

-- ==== linked

variable {m : HashMap PublicKey (Digest × Certificate)}
  {cs : List Certificate} {as bs : List Certificate}

section Descent

variable (hS : ValidSet cn S) (hv : View cn S received s)

include hv

/-- One round of `linked`: the parents, in the set, of the certificates
held. -/
lemma mem_parentsIn (habove : s.lastCommittedRound < r)
    (hm : s.dag.lookup r = some m) {ps : List Certificate}
    (hps : ∀ p ∈ ps, p ∈ cn.genesis ++ received ∧ p.round = r + 1) :
    q ∈ parentsIn m ps ↔ ∃ p ∈ ps, hS.graph.parent p q := by
  unfold parentsIn
  rw [mem_map]
  constructor
  · rintro ⟨⟨d, q'⟩, hmem, rfl⟩
    obtain ⟨hval, hany⟩ := mem_filter.mp hmem
    obtain ⟨p, hp, hd⟩ := any_eq_true.mp hany
    obtain ⟨n, hentry⟩ := entry_eq_some_iff.mpr ⟨m, hm, hval⟩
    obtain ⟨hdig, -, -, hrec⟩ := hv.inv.spec hentry
    refine ⟨p, hp, hv.sub _ hrec, ?_⟩
    rw [← show d = q'.digest cn.crypto from hdig]
    exact of_decide_eq_true hd
  rintro ⟨p, hp, hpar⟩
  obtain ⟨hprec, hpr⟩ := hps p hp
  have hqrec := hv.parent_mem hS hprec hpar
  have hqr : q.round + 1 = p.round := hS.graph.parent_layer (hv.sub _ hprec) hpar
  have hqr' : q.round = r := by omega
  have hentry := hv.entry_above hS hqrec (by omega)
  rw [hqr'] at hentry
  obtain ⟨m', hm', hval⟩ := entry_eq_some_iff.mp ⟨_, hentry⟩
  rw [hm] at hm'
  cases hm'
  refine ⟨_, mem_filter.mpr ⟨hval, ?_⟩, rfl⟩
  exact any_eq_true.mpr ⟨p, hp, decide_eq_true hpar.2⟩

/-- The loop of `linked` arrives at what is reached in the lowest round. -/
lemma mem_parentsDown {lo k : Nat} {ps qs : List Certificate}
    (habove : s.lastCommittedRound < lo)
    (hps : ∀ p ∈ ps, p ∈ cn.genesis ++ received ∧ p.round = lo + k)
    (h : parentsDown s.dag lo k ps = .ok qs) :
    q ∈ qs ↔ q.round = lo ∧ ∃ p ∈ ps, hS.graph.Reaches p q := by
  induction k generalizing ps with
  | zero =>
    cases h
    constructor
    · intro hq
      exact ⟨(hps q hq).2, q, hq, refl⟩
    rintro ⟨hqr, p, hp, hreach⟩
    obtain ⟨hprec, hpr⟩ := hps p hp
    have hle : p.round ≤ q.round := by omega
    rw [← hreach.eq_of_layer (hv.sub _ hprec) hle]
    exact hp
  | succ k ih =>
    unfold parentsDown at h
    split at h
    · cases h
    next m hm =>
    have hmem : ∀ {p}, p ∈ parentsIn m ps ↔ ∃ c ∈ ps, hS.graph.parent c p := fun {p} =>
      mem_parentsIn hS hv (by omega) hm hps
    have hnext : ∀ p ∈ parentsIn m ps, p ∈ cn.genesis ++ received ∧ p.round = lo + k := by
      intro p hp
      obtain ⟨c, hc, hpar⟩ := hmem.mp hp
      obtain ⟨hcrec, hcr⟩ := hps c hc
      have hpr : p.round + 1 = c.round := hS.graph.parent_layer (hv.sub _ hcrec) hpar
      exact ⟨hv.parent_mem hS hcrec hpar, by omega⟩
    rw [ih hnext h]
    refine and_congr_right fun hqr => ?_
    constructor
    · rintro ⟨p, hp, hreach⟩
      obtain ⟨c, hc, hpar⟩ := hmem.mp hp
      exact ⟨c, hc, head hpar hreach⟩
    rintro ⟨c, hc, hreach⟩
    -- `c` is above `q`, so the path has a first edge
    rcases cases_head hreach with
      rfl | ⟨p, hpar, hrest⟩
    · have := (hps c hc).2
      omega
    exact ⟨p, hmem.mpr ⟨c, hc, hpar⟩, hrest⟩

/-- `linked` decides whether there is a path. -/
lemma linked_iff {prev : Certificate} (hl : leader ∈ cn.genesis ++ received)
    (hp : prev ∈ cn.genesis ++ received)
    (habove : s.lastCommittedRound < prev.round)
    (hle : prev.round ≤ leader.round) {b : Bool}
    (h : linked leader prev s.dag = .ok b) :
    b = true ↔ hS.graph.Reaches leader prev := by
  unfold linked at h
  obtain ⟨qs, hd, h⟩ := bind_eq_ok.mp h
  cases h
  have hspec : ∀ {q}, q ∈ qs ↔ q.round = prev.round
      ∧ ∃ p ∈ [leader], hS.graph.Reaches p q := fun {q} =>
    mem_parentsDown hS hv habove (by
      intro p hp
      rw [mem_singleton.mp hp]
      exact ⟨hl, by omega⟩) hd
  rw [any_eq_true]
  constructor
  · rintro ⟨q, hq, heq⟩
    obtain ⟨-, hr, ho⟩ := partialEq_iff.mp heq
    obtain ⟨-, p, hp', hreach⟩ := hspec.mp hq
    rw [mem_singleton.mp hp'] at hreach
    have hqS := hv.sub _ (hv.reaches_mem hS hl hreach)
    rw [← hS.unique hqS (hv.sub _ hp) ho hr]
    exact hreach
  intro hreach
  refine ⟨prev, hspec.mpr ⟨rfl, leader, mem_singleton.mpr rfl, hreach⟩, ?_⟩
  exact partialEq_iff.mpr ⟨rfl, rfl, rfl⟩

-- ==== order_leaders

/-- The loop of `order_leaders` is the descent through the set. -/
lemma orderLeadersFrom_eq {rs : List Nat} {acc out : List Certificate}
    (hl : leader ∈ cn.genesis ++ received) (hpair : rs.Pairwise (· > ·))
    (hrs : ∀ r ∈ rs, s.lastCommittedRound < r ∧ r < leader.round)
    (h : cn.orderLeadersFrom s.dag rs leader acc = .ok out) :
    out = acc ++ descend hS.graph.Reaches (candidate cn S) rs leader := by
  induction rs generalizing leader acc with
  | nil =>
    cases h
    exact (append_nil _).symm
  | cons r rs ih =>
    obtain ⟨hgt, hpair⟩ := pairwise_cons.mp hpair
    obtain ⟨habove, hlt⟩ := hrs r (mem_cons_self ..)
    have hrs' : ∀ r' ∈ rs, s.lastCommittedRound < r' ∧ r' < leader.round :=
      fun r' hr' => hrs r' (mem_cons_of_mem _ hr')
    unfold orderLeadersFrom at h
    obtain ⟨x, hlead, h⟩ := bind_eq_ok.mp h
    obtain ⟨n, hn, hentry⟩ := leader_eq_ok hlead
    cases x with
    | none =>
      have hout := ih hl hpair hrs' h
      -- a leader the node does not hold is not reached
      cases hc : candidate cn S r with
      | none => rw [descend_none hc]; exact hout
      | some y =>
        obtain ⟨hyS, hyr, hyk⟩ := candidate_eq_some hc
        have hnot : ¬ hS.graph.Reaches leader y := by
          intro hreach
          have hyrec := hv.reaches_mem hS hl hreach
          have hye := hv.entry_above hS hyrec (by omega)
          rw [hn] at hyk
          rw [hyr, ← Except.ok.inj hyk, hentry] at hye
          cases hye
        rw [descend_skip hc hnot]
        exact hout
    | some x =>
      obtain ⟨d, prev⟩ := x
      obtain ⟨-, hpr, hpo, hprec⟩ := hv.inv.spec hentry
      simp only at hpr hpo hprec
      have hc : candidate cn S r = some prev := by
        rw [← hpr]
        refine hS.candidate_of_mem (hv.sub _ hprec) ?_
        rw [hpr, hpo]
        exact hn
      obtain ⟨b, hlink, h⟩ := bind_eq_ok.mp h
      have hiff := linked_iff hS hv hl hprec (by omega) (by omega) hlink
      cases b with
      | false =>
        rw [descend_skip hc fun hreach => absurd (hiff.mpr hreach) Bool.false_ne_true]
        exact ih hl hpair hrs' h
      | true =>
        rw [descend_keep hc (hiff.mp rfl)]
        have hrs'' : ∀ r' ∈ rs, s.lastCommittedRound < r' ∧ r' < prev.round := fun r' hr' => by
          have := hgt r' hr'
          exact ⟨(hrs' r' hr').1, by omega⟩
        rw [ih hprec hpair hrs'' h, append_assoc]
        rfl

/-- `order_leaders` returns the leader and those below it down to the last
committed round. -/
lemma orderLeaders_eq (hl : IsLeader cn received s leader)
    {leaders : List Certificate} (h : cn.orderLeaders leader s = .ok leaders) :
    leaders = leader :: below hS (s.lastCommittedRound + 2) leader := by
  have habove := hl.above
  have heven := hl.even
  unfold Consensus.orderLeaders at h
  rw [orderLeaders_rounds hl.above hl.even] at h
  refine orderLeadersFrom_eq hS hv hl.mem (leaderRounds_pairwise _ _) (fun r hr => ?_) h
  have := mem_leaderRounds hr
  omega

end Descent

-- ==== the elected leader

/-- The authors of a round's certificates are its keys. -/
lemma map_origin_values (hinv : Inv cn received s)
    (hm : s.dag.lookup r = some m) :
    (values m).map (fun x => x.2.origin) = m.keys := by
  unfold values AList.keys keys
  rw [map_map]
  refine map_congr_left fun e he => ?_
  have hlook : m.lookup e.1 = some e.2 := AList.mem_lookup_iff.mpr he
  have hentry : s.entry r e.1 = some e.2 := Option.bind_eq_some_iff.mpr ⟨m, hm, hlook⟩
  exact (hinv.spec hentry).2.2.1

/-- The leader the commit rule elects is supported in the set. -/
lemma Elected.supported_in (hS : ValidSet cn S) (hv : View cn S received s)
    {d : Digest} {children : HashMap PublicKey (Digest × Certificate)}
    (h : Elected cn s r d leader children) : Supported hS leader := by
  obtain ⟨n, -, hentry⟩ := leader_eq_ok h.elected
  obtain ⟨hd, -, -, hlrec⟩ := hv.inv.spec hentry
  refine ⟨((values children).filter fun x =>
    d ∈ x.2.header.parents).map Prod.snd, ?_, ?_, ?_⟩
  · intro q hq
    obtain ⟨x, hx, rfl⟩ := mem_map.mp hq
    obtain ⟨hval, hpar⟩ := mem_filter.mp hx
    obtain ⟨n', hentry'⟩ := entry_eq_some_iff.mpr ⟨children, h.children_eq, hval⟩
    refine ⟨hv.sub _ (hv.inv.spec hentry').2.2.2, hv.sub _ hlrec, ?_⟩
    rw [← hd]
    exact of_decide_eq_true hpar
  · have hsub : ((((values children).filter fun x =>
        d ∈ x.2.header.parents).map Prod.snd).map origin).Sublist children.keys := by
      rw [← map_origin_values hv.inv h.children_eq, map_map]
      exact (filter_sublist).map _
    exact List.Nodup.sublist hsub children.nodupKeys
  refine le_trans h.supported (le_trans (word_le 32 _) ?_)
  unfold weigh
  rw [map_map, map_map]
  exact le_refl _

-- ==== the run

structure Anchor (hS : ValidSet cn S) (l : Certificate) : Prop where
  mem : l ∈ S
  key : cn.leaderKey l.round = .ok l.origin
  even : l.round % 2 = 0
  pos : 2 ≤ l.round
  supported : Supported hS l

lemma commitLeaders_leaders (cn : Consensus) :
    ∀ (ls : List Certificate) (s : State), (cn.commitLeaders s ls).2.map
      Commit.leader = ls := by
  intro ls
  induction ls with
  | nil => intro s; rfl
  | cons l ls ih =>
    intro s
    show l :: ((cn.commitLeaders _ ls).2.map Commit.leader) = _
    rw [ih]

lemma Delivery.fed (hS : ValidSet cn S) (h : Delivery cn S cs)
    (hfits : ∀ c ∈ cs, c.round + cn.gcDepth < 2 ^ 64) :
    Along (Fed cn) [] cs := by
  refine Along.imp (fun pre c hc => ?_) ((h.first.and_mem h.mem).and_mem hfits)
  obtain ⟨⟨hfirst, hmem⟩, hfit⟩ := hc
  obtain ⟨ps, hdig, -, hquorum⟩ := hS.parents hmem
  have hpos := cn.committee.quorumThreshold_pos
  refine ⟨hfirst, fun hr hnil => ?_, fun hr => ?_, hfit⟩
  · rw [hnil, map_eq_nil_iff] at hdig
    have := hquorum hr
    rw [hdig] at this
    simp at this
    omega
  exact Committee.entries_ne_nil_of_weigh (lt_of_lt_of_le hpos (hquorum hr))

lemma Trace.view (hS : ValidSet cn S) (h : Trace cn (fedGuard cn) cs ks s)
    (hmem : ∀ c ∈ cs, c ∈ S) : View cn S cs s where
  inv := h.inv
  sub := by
    intro c hc
    rcases mem_append.mp hc with hg | hc
    · exact hS.genesis c hg
    exact hmem c hc
  closed := h.parents
  fits := fun c hc => (h.fed c hc).2

/-- The last committed round of a node is the round of its last leader. -/
lemma Trace.lastCommittedRound_leaders (h : Trace cn (fedGuard cn) cs ks s) :
    s.lastCommittedRound
      = (ks.map Commit.leader).getLast?.elim 0 Certificate.round := by
  rw [h.lastCommittedRound_eq, getLast?_map]
  cases ks.getLast? with
  | none => rfl
  | some k => rfl

/-- The leaders of a node are the log of the last leader it elected. -/
lemma run_log (hS : ValidSet cn S)
    (hstake : cn.committee.totalStake < 2 ^ 31) :
    ∀ {cs : List Certificate}, (∀ c ∈ cs, c ∈ S) → Along (Fed cn) [] cs →
      (run cn cs).leaders = []
        ∨ ∃ l, Anchor hS l ∧ (run cn cs).leaders = leaderLog hS l := by
  intro cs
  induction cs using reverseRecOn with
  | nil => intro _ _; exact .inl rfl
  | append_singleton cs c ih =>
    intro hmem h
    obtain ⟨hcs, hc⟩ := along_concat.mp h
    obtain ⟨-, htrace⟩ := run_fed hcs
    have ih := ih (fun d hd => hmem d (mem_append_left _ hd)) hcs
    rw [run_concat]
    rcases step_cases cn (run cn cs) c with
      ⟨e, -, heq⟩ | ⟨-, e, -, heq⟩ | ⟨-, s', ks, hr, heq⟩
    · rw [heq]
      exact ih
    · rw [heq]
      exact ih
    rw [heq]
    rcases receive_cases hr with ⟨-, rfl⟩ | ⟨d, l, m, ls, hel, hord, hks⟩
    · rw [append_nil]
      exact ih
    right
    have hins : Trace cn (fedGuard cn) (cs ++ [c]) _ _ := htrace.insert hc.first hc
    have hv := hins.view hS hmem
    obtain ⟨hl, -⟩ := hel.isLeader hins.inv
    have habove := hl.above
    have heven := hl.even
    have hanchor : Anchor hS l := ⟨hv.sub l hl.mem, hl.key, hl.even,
      by omega, hel.supported_in hS hv⟩
    refine ⟨l, hanchor, ?_⟩
    have hnew : ks.map Commit.leader = ls.reverse := by
      rw [show ks = (cn.commitLeaders _ ls.reverse).2 from congrArg Prod.snd hks]
      exact commitLeaders_leaders cn _ _
    have hlcr := hins.lastCommittedRound_leaders
    show (((run cn cs).commits ++ ks).map Commit.leader) = _
    rw [map_append, hnew, orderLeaders_eq hS hv hl hord]
    rcases ih with hnil | ⟨l₀, h₀, hlog⟩
    · have hnil' : (run cn cs).commits.map Commit.leader = [] := hnil
      rw [hnil'] at hlcr ⊢
      rw [hlcr]
      rfl
    have hlog' : (run cn cs).commits.map Commit.leader = leaderLog hS l₀ := hlog
    have hlast : (leaderLog hS l₀).getLast? = some l₀ := by
      unfold leaderLog
      rw [getLast?_reverse]
      rfl
    rw [hlog', hlast] at hlcr
    rw [hlog', show (cn.insert (run cn cs).state c).lastCommittedRound = l₀.round from hlcr]
    rw [show (cn.insert (run cn cs).state c).lastCommittedRound = l₀.round from hlcr] at habove
    exact (leaderLog_extends hstake h₀.mem h₀.key h₀.even
      h₀.supported hanchor.mem hl.even h₀.pos habove).symm

/-- The logs of two anchors are prefixes of one another. -/
lemma Anchor.comparable {hS : ValidSet cn S}
    (hstake : cn.committee.totalStake < 2 ^ 31) (h : Anchor hS l)
    (h' : Anchor hS l') (hle : l.round ≤ l'.round) :
    leaderLog hS l <+: leaderLog hS l' := by
  rcases Nat.lt_or_eq_of_le hle with hlt | heq
  · exact ⟨_, (leaderLog_extends hstake h.mem h.key h.even h.supported
      h'.mem h'.even h.pos hlt).symm⟩
  have ho := Except.ok.inj (h.key.symm.trans (heq ▸ h'.key))
  rw [hS.unique h.mem h'.mem ho heq]

lemma leaders_comparable (hS : ValidSet cn S)
    (hstake : cn.committee.totalStake < 2 ^ 31) (hA : ∀ c ∈ as, c ∈ S)
    (hA' : Along (Fed cn) [] as) (hB : ∀ c ∈ bs, c ∈ S)
    (hB' : Along (Fed cn) [] bs) :
    (run cn as).leaders <+: (run cn bs).leaders
      ∨ (run cn bs).leaders <+: (run cn as).leaders := by
  rcases run_log hS hstake hA hA' with ha | ⟨l, hl, ha⟩
  · rw [ha]
    exact .inl ⟨_, rfl⟩
  rcases run_log hS hstake hB hB' with hb | ⟨l', hl', hb⟩
  · rw [hb]
    exact .inr ⟨_, rfl⟩
  rw [ha, hb]
  rcases Nat.le_total l.round l'.round with hle | hle
  · exact .inl (hl.comparable hstake hl' hle)
  exact .inr (hl'.comparable hstake hl hle)

-- ==== two nodes

/-- The conditions of `ValidSet` on the members of a list. -/
abbrev ListValid (cn : Consensus) (l : List Certificate) : Prop :=
  (∀ g ∈ cn.genesis, g ∈ l)
    ∧ (∀ c ∈ l, ∀ d ∈ l, c.origin = d.origin → c.round = d.round → c = d)
    ∧ (∀ c ∈ l, ∀ d ∈ l, c.digest cn.crypto = d.digest cn.crypto → c = d)
    ∧ ∀ c ∈ l, (parentsOf cn l c).map (Certificate.digest cn.crypto) = c.header.parents.toList
        ∧ (∀ q ∈ parentsOf cn l c, q ∈ l ∧ q.round + 1 = c.round)
        ∧ (1 ≤ c.round → QuorumParents cn l c)

lemma ListValid.validSet {l : List Certificate} (h : ListValid cn l) :
    ValidSet cn { c | c ∈ l } where
  genesis := h.1
  unique := fun hc hd => h.2.1 _ hc _ hd
  identified := fun hc hd => h.2.2.1 _ hc _ hd
  parents := fun {c} hc => ⟨parentsOf cn l c, h.2.2.2 c hc⟩

/-- The conditions of `Delivery` from the members of a list. -/
abbrev ListDelivery (cn : Consensus) (l cs : List Certificate) : Prop :=
  (∀ c ∈ cs, c ∈ l) ∧ cs.Nodup ∧ Along (ParentFirst cn) [] cs

lemma ListDelivery.delivery {l cs : List Certificate}
    (h : ListDelivery cn l cs) : Delivery cn { c | c ∈ l } cs :=
  ⟨h.1, h.2.1, h.2.2⟩

namespace Trio

/-- A first certificate of `c`, which its second does not reference. -/
def c1 : Certificate := certOf 2 1 (Certificate.genesis committee)

def b2 : Certificate := certOf 1 2 [a1, c1]

def b3 : Certificate := certOf 1 3 [a2, b2]

/-- A leader of round 4 that reaches `c1`. -/
def b4' : Certificate := certOf 1 4 [a3, b3]

def b5 : Certificate := certOf 1 5 [a4]

def a5' : Certificate := certOf 0 5 [a4, b4']

def a6' : Certificate := certOf 0 6 [a5']

def a7' : Certificate := certOf 0 7 [a6']

/-- `c1` arrives after `c2` is committed. -/
def lateFirst : List Certificate := [a1, c2, a2, a3, a4, b5, c1, b2, b3, b4', a5', a6', a7']

/-- `c1` arrives before everything else. -/
def earlyFirst : List Certificate := [c1, a1, c2, a2, a3, a4, b5, b2, b3, b4', a5', a6', a7']

def both : List Certificate := Certificate.genesis committee ++ earlyFirst

lemma both_checked :
    ListValid (task 50) both ∧ ListDelivery (task 50) both lateFirst
      ∧ ListDelivery (task 50) both earlyFirst := by
  decide +kernel

end Trio

-- ==== the main result

/-- Two nodes' leaders are prefixes of one another, and neither skips a
leader of the other below one of its own, while the total stake is below 2³¹
and the rounds received leave room for the garbage collection depth. -/
theorem leader_agreement (cn : Consensus) (S : Set Certificate)
    (hS : ValidSet cn S) (as bs : List Certificate) (hA : Delivery cn S as)
    (hB : Delivery cn S bs) (hstake : cn.committee.totalStake < 2 ^ 31)
    (hfits : ∀ c ∈ as ++ bs, c.round + cn.gcDepth < 2 ^ 64) :
    ((Node.run cn as).leaders <+: (Node.run cn bs).leaders
      ∨ (Node.run cn bs).leaders <+: (Node.run cn as).leaders)
      ∧ ∀ l ∈ (Node.run cn as).leaders, ∀ l' ∈ (Node.run cn bs).leaders,
        l.round ≤ l'.round → l ∈ (Node.run cn bs).leaders := by
  have hA' := hA.fed hS fun c hc => hfits c (mem_append_left _ hc)
  have hB' := hB.fed hS fun c hc => hfits c (mem_append_right _ hc)
  have hcomp := leaders_comparable hS hstake hA.mem hA' hB.mem hB'
  refine ⟨hcomp, fun l hl l' hl' hle => ?_⟩
  rcases hcomp with hpre | hpre
  · exact hpre.subset hl
  -- the leaders are sorted, so what follows the prefix is above `l'`
  obtain ⟨rest, hrest⟩ := hpre
  have hsorted : (run cn as).leaders.Pairwise fun a b => a.round < b.round :=
    (run_fed hA').2.leaders_sorted.1
  rw [← hrest] at hl hsorted
  rcases mem_append.mp hl with hl | hl
  · exact hl
  have := (pairwise_append.mp hsorted).2.2 l' hl' l hl
  omega

theorem leader_agreement_small :
    (Node.run (Trio.task 50) Trio.lateFirst).leaders = [Trio.c2, Trio.b4']
    ∧ ((Node.run (Trio.task 50) Trio.lateFirst).leaders
        <+: (Node.run (Trio.task 50) Trio.earlyFirst).leaders
      ∨ (Node.run (Trio.task 50) Trio.earlyFirst).leaders
        <+: (Node.run (Trio.task 50) Trio.lateFirst).leaders) :=
  ⟨by decide +kernel, (leader_agreement _ _ Trio.both_checked.1.validSet
    _ _ Trio.both_checked.2.1.delivery Trio.both_checked.2.2.delivery
    (by decide +kernel) (by decide +kernel)).1⟩

namespace Overflow

/-- Four authorities of stake 2²⁹: twice the total is 2³², so the quorum
threshold is 1. -/
def committee : Committee where
  authorities :=
    { entries :=
        [(0, ⟨2 ^ 29, [0], by decide⟩), (1, ⟨2 ^ 29, [0], by decide⟩),
         (2, ⟨2 ^ 29, [0], by decide⟩), (3, ⟨2 ^ 29, [0], by decide⟩)]
      sorted := by decide }

def task : Consensus := ⟨Trio.spell, committee, 50⟩

/-- Round `r` of two authorities that only reference each other. -/
def half (x y : PublicKey) : Nat → List Certificate
  | 0 => Certificate.genesis committee
  | r + 1 =>
    let parents := half x y r
    [Trio.certOf x (Fin.ofNat _ (r + 1)) parents, Trio.certOf y (Fin.ofNat _ (r + 1)) parents]

/-- The rounds from 1 to `n` of the two authorities. -/
def halfUpTo (x y : PublicKey) (n : Nat) : List Certificate :=
  (List.range n).flatMap fun r => half x y (r + 1)

def all : List Certificate := Certificate.genesis committee ++ halfUpTo 2 3 5 ++ halfUpTo 0 1 7

lemma all_checked :
    ListValid task all ∧ ListDelivery task all (halfUpTo 2 3 5)
      ∧ ListDelivery task all (halfUpTo 0 1 7) := by
  decide +kernel

end Overflow

/-- Four authorities of stake 2²⁹ split into two halves. Every certificate
has the quorum of 1 the code computes. The node that hears the first half
commits a leader of round 2, the other a leader of round 4, and neither has
the other's. -/
theorem leader_agreement_fails :
    ¬ ∀ (cn : Consensus) (S : Set Certificate), ValidSet cn S →
      ∀ as bs, Delivery cn S as → Delivery cn S bs →
        (Node.run cn as).leaders <+: (Node.run cn bs).leaders
          ∨ (Node.run cn bs).leaders <+: (Node.run cn as).leaders := by
  intro h
  have hor := h Overflow.task _ Overflow.all_checked.1.validSet _ _
    Overflow.all_checked.2.1.delivery Overflow.all_checked.2.2.delivery
  exact absurd hor (by decide +kernel)

end HetuEngine.Tusk
