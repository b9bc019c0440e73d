/-
The walk of `order_dag`, and one turn of the consensus loop, taken apart once.

# The walk

The buffer holds certificates of the DAG, each pushed at most once, so the
loop ends for every state (`orderDag_ends`). The result is what the walk
emits, without the certificates beyond the garbage collection depth, sorted
by round (`orderDag_eq`).

# One turn

`receive_cases` says everything a turn that does not abort can do: add the
certificate and stop there, or add it, find a leader that meets the commit
rule (`Elected`) and flatten the leaders `order_leaders` returns. Every
later file argues from these two cases and from the recursion of
`commitLeaders` over the leaders; none unfolds `tryCommit`.

# Traces

`Trace` splits a run into its smallest moves, adding a certificate and
flattening one leader, with what is known about the leader there: it was
received, its round is even and above the last committed round. `run_trace`
says that every parent-first run is one, up to the point where it aborts, if
it does. Safety properties of the output are inductions over `Trace`.
-/
import HetuEngine.Lib.Fallible
import HetuEngine.Tusk.Proofs.Dag

namespace HetuEngine.Tusk

open Lib Lib.Weight Narwhal Consensus HashMap

-- ==== children

variable {s : State} {x y : Digest × Certificate}

lemma entry_eq_some_iff {r : Nat} : (∃ n, s.entry r n = some x)
    ↔ ∃ m, s.dag.lookup r = some m ∧ x ∈ HashMap.values m := by
  unfold State.entry
  constructor
  · rintro ⟨n, h⟩
    obtain ⟨m, hm, hx⟩ := Option.bind_eq_some_iff.mp h
    exact ⟨m, hm, mem_values.mpr ⟨n, hx⟩⟩
  rintro ⟨m, hm, hx⟩
  obtain ⟨n, hn⟩ := mem_values.mp hx
  exact ⟨n, Option.bind_eq_some_iff.mpr ⟨m, hm, hn⟩⟩

lemma parentOf_eq_some {x : Certificate} {d : Digest}
    (h : parentOf s x d = some y) :
    y.1 = d ∧ (∃ n, s.entry (u64Sub x.round 1) n = some y)
      ∧ s.lastCommitted.lookup y.2.origin ≠ some y.2.round := by
  unfold parentOf at h
  obtain ⟨m, hm, h⟩ := Option.bind_eq_some_iff.mp h
  obtain ⟨z, hz, h⟩ := Option.bind_eq_some_iff.mp h
  split at h
  · cases h
  next hskip =>
  cases h
  have hd := List.find?_some hz
  refine ⟨of_decide_eq_true hd, ?_, hskip⟩
  exact entry_eq_some_iff.mpr ⟨m, hm, List.mem_of_find?_eq_some hz⟩

/-- What `order_dag` pushes is a parent, in the round below, and not the
last certificate committed for its author. -/
lemma mem_dagChildren (h : y ∈ dagChildren s x) : y.1 ∈ x.2.header.parents
    ∧ (∃ n, s.entry (u64Sub x.2.round 1) n = some y)
    ∧ s.lastCommitted.lookup y.2.origin ≠ some y.2.round := by
  obtain ⟨d, hd, hy⟩ := List.mem_filterMap.mp h
  obtain ⟨rfl, hentry, hskip⟩ := parentOf_eq_some hy
  exact ⟨hd, hentry, hskip⟩

/-- The lookup of a parent finds the entry with that digest, when there is
only one. -/
lemma parentOf_of_entry {x : Certificate}
    (hinj : ∀ n z, s.entry (u64Sub x.round 1) n = some z → z.1 = y.1 → z = y)
    (hentry : ∃ n, s.entry (u64Sub x.round 1) n = some y)
    (hskip : s.lastCommitted.lookup y.2.origin ≠ some y.2.round) :
    parentOf s x y.1 = some y := by
  obtain ⟨m, hm, hy⟩ := entry_eq_some_iff.mp hentry
  have hfind : (values m).find? (fun z => z.1 = y.1) = some y := by
    cases hf : (values m).find? (fun z => z.1 = y.1) with
    | none =>
      have := List.find?_eq_none.mp hf y hy
      simp at this
    | some z =>
      have hz : ∃ n, s.entry (u64Sub x.round 1) n = some z :=
        entry_eq_some_iff.mpr ⟨m, hm, List.mem_of_find?_eq_some hf⟩
      obtain ⟨n, hn⟩ := hz
      have hd := List.find?_some hf
      rw [hinj n z hn (of_decide_eq_true hd)]
  unfold parentOf
  rw [hm]
  show ((values m).find? (fun z => z.1 = y.1)).bind _ = _
  rw [hfind]
  exact if_neg hskip

lemma mem_dagChildren_iff
    (hinj : ∀ n z, s.entry (u64Sub x.2.round 1) n = some z →
      z.1 = y.1 → z = y) :
    y ∈ dagChildren s x
      ↔ y.1 ∈ x.2.header.parents
        ∧ (∃ n, s.entry (u64Sub x.2.round 1) n = some y)
        ∧ s.lastCommitted.lookup y.2.origin ≠ some y.2.round := by
  refine ⟨mem_dagChildren, ?_⟩
  rintro ⟨hd, hentry, hskip⟩
  exact List.mem_filterMap.mpr ⟨y.1, hd, parentOf_of_entry hinj hentry hskip⟩

-- ==== termination

def dagDigests (dag : Dag) : List Digest :=
  (HashMap.values dag).flatMap fun m => (HashMap.values m).map Prod.fst

lemma length_dagDigests (dag : Dag) :
    (dagDigests dag).length = dagSize dag := by
  unfold dagDigests dagSize values
  rw [List.length_flatMap]
  simp only [List.length_map]

lemma orderDag_ends (s : State) (root : Digest × Certificate) {n : Nat}
    (hn : dagSize s.dag + 1 ≤ n) :
    (Worklist.run Prod.fst (dagChildren s) root n).buffer = [] := by
  rw [← length_dagDigests] at hn
  refine Worklist.run_buffer_nil (fun x y hy => ?_) hn
  obtain ⟨-, hentry, -⟩ := mem_dagChildren hy
  obtain ⟨m, hm, hmem⟩ := entry_eq_some_iff.mp hentry
  exact List.mem_flatMap.mpr ⟨m, mem_values.mpr ⟨_, hm⟩, List.mem_map_of_mem hmem⟩

def finish (cn : Consensus) (s : State) (out : List (Digest × Certificate)) : List Certificate :=
  ((out.map Prod.snd).filter fun x =>
      s.lastCommittedRound ≤ u64 (x.round + cn.gcDepth)).insertionSort
    fun a b => a.round ≤ b.round

/-- `order_dag` returns what its walk emits, cut and sorted. -/
lemma orderDag_eq (cn : Consensus) (s : State) (leader : Certificate) :
    ∃ out, Worklist.Yields Prod.fst (dagChildren s)
      (leader.digest cn.crypto, leader) out
      ∧ cn.orderDag leader s = finish cn s out :=
  ⟨_, ⟨dagSize s.dag + 1, orderDag_ends s _ (le_refl _), rfl⟩, rfl⟩

-- ==== the result

instance : Std.Total fun a b : Certificate => a.round ≤ b.round :=
  ⟨fun a b => Nat.le_total a.round b.round⟩

instance : IsTrans Certificate fun a b => a.round ≤ b.round := ⟨fun _ _ _ => Nat.le_trans⟩

lemma mem_finish {cn : Consensus} {out : List (Digest × Certificate)}
    {c : Certificate} :
    c ∈ finish cn s out
      ↔ (∃ d, (d, c) ∈ out) ∧ s.Recent cn.gcDepth c.round := by
  unfold finish State.Recent
  rw [List.mem_insertionSort, List.mem_filter, decide_eq_true_iff, List.mem_map]
  refine and_congr_left fun _ => ?_
  constructor
  · rintro ⟨⟨d, c'⟩, hmem, rfl⟩
    exact ⟨d, hmem⟩
  rintro ⟨d, hmem⟩
  exact ⟨_, hmem, rfl⟩

end HetuEngine.Tusk

namespace HetuEngine.Tusk

open Lib Lib.Weight Fallible Narwhal Consensus Node Certificate

variable {cn : Consensus}

-- ==== the leader

variable {r : Nat} {s : State} {ks : List Commit} {leader : Certificate}
  {received : List Certificate} {P : Guard} {cs : List Certificate} {s' : State}

/-- The leader's certificate is the entry of the authority that leads the
round. -/
lemma leader_of_key {n : PublicKey} (h : cn.leaderKey r = .ok n) (s : State) :
    cn.leader r s.dag = .ok (s.entry r n) := by
  unfold leader
  rw [h]
  rfl

/-- A committee that is not empty has a leader for every round. -/
lemma leaderKey_ok (h : cn.committee.authorities.entries ≠ []) (r : Nat) :
    ∃ n, cn.leaderKey r = .ok n := by
  have hpos : 0 < cn.committee.size := List.length_pos_iff.mpr h
  have hlt : r % cn.committee.size < cn.committee.authorities.keys.length := by
    unfold BTreeMap.keys
    rw [List.length_map]
    exact Nat.mod_lt _ hpos
  unfold leaderKey
  rw [List.getElem?_eq_getElem hlt]
  exact ⟨_, rfl⟩

lemma leader_eq_ok {x : Option (Digest × Certificate)}
    (h : cn.leader r s.dag = .ok x) :
    ∃ n, cn.leaderKey r = .ok n ∧ s.entry r n = x := by
  obtain ⟨n, hn, h⟩ := bind_eq_ok.mp h
  cases h
  exact ⟨n, hn, rfl⟩

-- ==== one turn

/-- The commit rule: with `r` the round below the certificate received, `leader` is committed. -/
structure Elected (cn : Consensus) (s : State) (r : Nat) (d : Digest)
    (leader : Certificate) (children : HashMap PublicKey (Digest × Certificate)) : Prop where
  even : r % 2 = 0
  high : 4 ≤ r
  fresh : s.lastCommittedRound < r - 2
  elected : cn.leader (r - 2) s.dag = .ok (some (d, leader))
  children_eq : s.dag.lookup (r - 1) = some children
  supported : cn.committee.validityThreshold ≤ cn.support children d

lemma tryCommit_cases (h : cn.tryCommit s r = .ok (s', ks)) :
    (s' = s ∧ ks = [])
      ∨ ∃ d leader children leaders, Elected cn s r d leader children
        ∧ cn.orderLeaders leader s = .ok leaders
        ∧ (s', ks) = cn.commitLeaders s leaders.reverse := by
  unfold tryCommit at h
  simp only [] at h
  split at h
  · cases h; exact .inl ⟨rfl, rfl⟩
  next hround =>
  split at h
  · cases h; exact .inl ⟨rfl, rfl⟩
  next hfresh =>
  obtain ⟨x, hl, h⟩ := bind_eq_ok.mp h
  cases x with
  | none => cases h; exact .inl ⟨rfl, rfl⟩
  | some x =>
    obtain ⟨d, leader⟩ := x
    dsimp only at h
    split at h
    · cases h
    next children hc =>
    split at h
    · cases h; exact .inl ⟨rfl, rfl⟩
    next hsupp =>
    obtain ⟨leaders, ho, h⟩ := bind_eq_ok.mp h
    right
    refine ⟨d, leader, children, leaders, ⟨?_, ?_, ?_, hl, hc, ?_⟩, ho, (Except.ok.inj h).symm⟩
    all_goals omega

lemma receive_cases {c : Certificate} (h : cn.receive s c = .ok (s', ks)) :
    (s' = cn.insert s c ∧ ks = [])
      ∨ ∃ d leader children leaders, Elected cn (cn.insert s c)
        (u64Sub c.round 1) d leader children
        ∧ cn.orderLeaders leader (cn.insert s c) = .ok leaders
        ∧ (s', ks) = cn.commitLeaders (cn.insert s c) leaders.reverse :=
  tryCommit_cases h

/-- A turn aborts only where the code can. -/
lemma tryCommit_ok (hleader : ∀ r', ∃ n, cn.leaderKey r' = .ok n)
    (hchildren : ∀ d leader, s.lastCommittedRound < r - 2 → 4 ≤ r →
      cn.leader (r - 2) s.dag = .ok (some (d, leader)) →
      ∃ m, s.dag.lookup (r - 1) = some m)
    (horder : ∀ d leader children, Elected cn s r d leader children →
      ∃ leaders, cn.orderLeaders leader s = .ok leaders) :
    ∃ x, cn.tryCommit s r = .ok x := by
  unfold tryCommit
  simp only []
  split
  · exact ⟨_, rfl⟩
  next hround =>
  split
  · exact ⟨_, rfl⟩
  next hfresh =>
  obtain ⟨n, hn⟩ := hleader (r - 2)
  have hl := leader_of_key hn s
  cases hx : s.entry (r - 2) n with
  | none =>
    rw [hl, hx]
    exact ⟨_, rfl⟩
  | some x =>
    obtain ⟨d, leader⟩ := x
    rw [hx] at hl
    obtain ⟨children, hc⟩ := hchildren d leader (by omega) (by omega) hl
    by_cases hlt : cn.support children d < cn.committee.validityThreshold
    · simp only [hl, hc, bind, Except.bind, if_pos hlt]
      exact ⟨_, rfl⟩
    obtain ⟨leaders, ho⟩ := horder d leader children
      ⟨by omega, by omega, by omega, hl, hc, by omega⟩
    simp only [hl, hc, bind, Except.bind, if_neg hlt, ho]
    exact ⟨_, rfl⟩

-- ==== the leaders

lemma mem_leaderRounds {lo hi : Nat} (h : r ∈ leaderRounds lo hi) :
    lo ≤ r ∧ r ≤ hi ∧ r % 2 = hi % 2 := by
  obtain ⟨i, hi', rfl⟩ := List.mem_map.mp h
  rw [List.mem_range] at hi'
  omega

lemma leaderRounds_pairwise (lo hi : Nat) :
    (leaderRounds lo hi).Pairwise (· > ·) := by
  unfold leaderRounds
  rw [List.pairwise_map]
  refine (List.pairwise_lt_range).imp_of_mem fun hi' hj hlt => ?_
  rw [List.mem_range] at hi' hj
  omega

/-- What `order_leaders` adds: at some of the rounds it visits, in their
order, the entry of the authority that leads the round. -/
lemma orderLeadersFrom_spec
    (hround : ∀ {r n x}, s.entry r n = some x → x.2.round = r)
    {rs : List Nat} {acc out : List Certificate}
    (h : cn.orderLeadersFrom s.dag rs leader acc = .ok out) :
    ∃ extra, out = acc ++ extra ∧ (extra.map round).Sublist rs
      ∧ ∀ l ∈ extra, ∃ n d, cn.leaderKey l.round = .ok n
        ∧ s.entry l.round n = some (d, l) := by
  induction rs generalizing leader acc with
  | nil =>
    cases h
    exact ⟨[], (List.append_nil _).symm, List.Sublist.refl _, fun l hl => by cases hl⟩
  | cons r rs ih =>
    -- a round that adds nothing
    have hskip : ∀ {leader acc}, cn.orderLeadersFrom s.dag rs leader acc = .ok out
        → ∃ extra, out = acc ++ extra ∧ (extra.map round).Sublist (r :: rs)
        ∧ ∀ l ∈ extra, ∃ n d, cn.leaderKey l.round = .ok n ∧ s.entry l.round n = some (d, l) := by
      intro leader acc h
      obtain ⟨extra, heq, hsub, hmem⟩ := ih h
      exact ⟨extra, heq, hsub.cons r, hmem⟩
    unfold orderLeadersFrom at h
    obtain ⟨x, hl, h⟩ := bind_eq_ok.mp h
    obtain ⟨n, hn, hentry⟩ := leader_eq_ok hl
    cases x with
    | none => exact hskip h
    | some x =>
      obtain ⟨d, prev⟩ := x
      obtain ⟨b, -, h⟩ := bind_eq_ok.mp h
      cases b with
      | false => exact hskip h
      | true =>
        obtain ⟨extra, heq, hsub, hmem⟩ := ih h
        have hr : prev.round = r := hround hentry
        refine ⟨prev :: extra, ?_, ?_, ?_⟩
        · rw [heq, List.append_assoc]
          rfl
        · rw [List.map_cons, hr]
          exact hsub.cons_cons r
        intro l hl
        rcases List.mem_cons.mp hl with rfl | hl
        · exact ⟨n, d, by rw [hr]; exact hn, by rw [hr]; exact hentry⟩
        exact hmem l hl

/-- What is known of a leader when it is flattened in state `s`, after
`received` was received. -/
structure IsLeader (cn : Consensus) (received : List Certificate)
    (s : State) (l : Certificate) : Prop where
  mem : l ∈ cn.genesis ++ received
  above : s.lastCommittedRound < l.round
  even : l.round % 2 = 0
  key : cn.leaderKey l.round = .ok l.origin

lemma Elected.isLeader (hinv : Inv cn received s) {d : Digest}
    {children : HashMap PublicKey (Digest × Certificate)}
    (h : Elected cn s r d leader children) :
    IsLeader cn received s leader ∧ leader.round = r - 2 := by
  obtain ⟨n, hn, hentry⟩ := leader_eq_ok h.elected
  obtain ⟨-, hr, ho, hmem⟩ := hinv.spec hentry
  simp only at hr ho hmem
  have heven := h.even
  have hhigh := h.high
  refine ⟨⟨hmem, by rw [hr]; exact h.fresh, by omega, ?_⟩, hr⟩
  rw [hr, ho]
  exact hn

lemma orderLeaders_rounds (habove : s.lastCommittedRound < leader.round)
    (heven : leader.round % 2 = 0) :
    leaderRounds (u64 (s.lastCommittedRound + 2)) (u64Sub leader.round 2)
      = leaderRounds (s.lastCommittedRound + 2) (leader.round - 2) := by
  have hlt := leader.round_lt
  rw [show u64 (s.lastCommittedRound + 2) = s.lastCommittedRound + 2 from
      word_of_lt (by omega),
    show u64Sub leader.round 2 = leader.round - 2 from
      wordSub_of_le (by omega)]

/-- The leaders to commit, oldest first: rounds increase, and each is a
leader in the state the commit started from. -/
lemma orderLeaders_spec (hinv : Inv cn received s)
    (hl : IsLeader cn received s leader) {leaders : List Certificate}
    (h : cn.orderLeaders leader s = .ok leaders) :
    leaders.reverse.Pairwise (fun a b => a.round < b.round)
    ∧ ∀ l ∈ leaders.reverse, IsLeader cn received s l := by
  unfold orderLeaders at h
  rw [orderLeaders_rounds hl.above hl.even] at h
  obtain ⟨extra, rfl, hsub, hmem⟩ := orderLeadersFrom_spec (fun hx => (hinv.spec hx).2.1) h
  have hrange : ∀ l ∈ extra, s.lastCommittedRound + 2 ≤ l.round
      ∧ l.round ≤ leader.round - 2 ∧ l.round % 2 = (leader.round - 2) % 2 := fun l hl =>
    mem_leaderRounds (hsub.subset (List.mem_map_of_mem hl))
  have habove := hl.above
  have heven := hl.even
  constructor
  · rw [List.pairwise_reverse]
    refine List.pairwise_cons.mpr ⟨fun l hl => ?_, ?_⟩
    · have := hrange l hl
      omega
    exact List.pairwise_map.mp ((leaderRounds_pairwise _ _).sublist hsub)
  intro l hmem'
  rw [List.mem_reverse] at hmem'
  rcases List.mem_cons.mp hmem' with rfl | hmem'
  · exact hl
  obtain ⟨n, d, hn, hentry⟩ := hmem l hmem'
  obtain ⟨-, hr, ho, hrec⟩ := hinv.spec hentry
  have := hrange l hmem'
  refine ⟨hrec, by omega, by omega, ?_⟩
  rw [show l.origin = n from ho]
  exact hn

-- ==== traces

def recordAll (cn : Consensus) (s : State) (xs : List Certificate) : State :=
  xs.foldl (fun s x => s.update x cn.gcDepth) s

/-- A certificate comes after its parents, which are of the previous
round. -/
def ParentFirst (cn : Consensus) (before : List Certificate) (c : Certificate) : Prop :=
  ∀ d ∈ c.header.parents.toList, ∃ q ∈ cn.genesis ++ before,
    q.digest cn.crypto = d ∧ q.round + 1 = c.round

instance (cn : Consensus) (before : List Certificate) (c : Certificate) :
    Decidable (ParentFirst cn before c) :=
  List.decidableBAll (fun d => ∃ q ∈ cn.genesis ++ before,
    q.digest cn.crypto = d ∧ q.round + 1 = c.round) _

/-- A condition on one turn: what was received and committed before, the
state, and the certificate received. -/
abbrev Guard := List Certificate → List Commit → State → Certificate → Prop

/-- A run in its smallest moves, whose turns all meet the condition `P`. -/
inductive Trace (cn : Consensus) (P : Guard) :
    List Certificate → List Commit → State → Prop where
  | init : Trace cn P [] [] (State.new cn.crypto cn.genesis)
  | insert {cs ks s c} (h : Trace cn P cs ks s) (hc : ParentFirst cn cs c)
      (hP : P cs ks s c) : Trace cn P (cs ++ [c]) ks (cn.insert s c)
  | commit {cs ks s l} (h : Trace cn P cs ks s) (hl : IsLeader cn cs s l) :
      Trace cn P cs (ks ++ [⟨s, l, cn.orderDag l s⟩]) (recordAll cn s (cn.orderDag l s))

lemma inv_recordAll (xs : List Certificate) (h : Inv cn received s) :
    Inv cn received (recordAll cn s xs) := by
  induction xs generalizing s with
  | nil => exact h
  | cons x xs ih => exact ih (inv_update h x)

lemma Trace.inv (h : Trace cn P cs ks s) : Inv cn cs s := by
  induction h with
  | init => exact inv_new cn
  | insert _ _ _ ih => exact inv_insert ih _
  | commit _ _ ih => exact inv_recordAll _ ih

lemma Trace.parents (h : Trace cn P cs ks s) :
    ∀ c ∈ cn.genesis ++ cs, ParentFirst cn cs c := by
  induction h with
  | init =>
    intro c hc d hd
    rw [List.append_nil] at hc
    rw [genesis_parents hc] at hd
    cases hd
  | @insert cs ks s c h hc hP ih =>
    intro c' hc' d hd
    rw [← List.append_assoc] at hc'
    have hfirst : ParentFirst cn cs c' := by
      rcases List.mem_append.mp hc' with hc' | hc'
      · exact ih c' hc'
      rw [List.mem_singleton.mp hc']
      exact hc
    obtain ⟨q, hq, hqd⟩ := hfirst d hd
    refine ⟨q, ?_, hqd⟩
    rw [← List.append_assoc]
    exact List.mem_append_left _ hq
  | commit _ _ ih => exact ih

-- ==== rounds go down

section

variable (hinv : Inv cn received s) (hpar : ∀ c ∈ cn.genesis ++ received, ParentFirst cn received c)

include hinv hpar

/-- What `order_dag` pushes when it visits a received certificate. -/
lemma child_spec {x y : Digest × Certificate}
    (hx : x.2 ∈ cn.genesis ++ received) (hy : y ∈ dagChildren s x) :
    y.2 ∈ cn.genesis ++ received ∧ y.1 = y.2.digest cn.crypto
      ∧ y.2.round + 1 = x.2.round ∧ s.entry y.2.round y.2.origin = some y := by
  obtain ⟨hd, ⟨n, hentry⟩, -⟩ := mem_dagChildren hy
  obtain ⟨q, -, -, hqr⟩ := hpar x.2 hx y.1 hd
  obtain ⟨hdig, hr, ho, hmem⟩ := hinv.spec hentry
  rw [show u64Sub x.2.round 1 = x.2.round - 1 from wordSub_of_le (by omega)] at hr hentry
  refine ⟨hmem, hdig, by omega, ?_⟩
  rw [hr, ho]
  exact hentry

/-- Everything the walk from a received certificate visits was received, and
is of a lower round, the root apart. -/
lemma reach_spec {root x : Digest × Certificate}
    (hroot : root.2 ∈ cn.genesis ++ received)
    (hdig : root.1 = root.2.digest cn.crypto)
    (hx : Worklist.Reach (dagChildren s) root x) :
    x.2 ∈ cn.genesis ++ received ∧ x.1 = x.2.digest cn.crypto
      ∧ (x = root ∨ x.2.round < root.2.round) := by
  induction hx with
  | refl => exact ⟨hroot, hdig, .inl rfl⟩
  | @tail y z _ hz ih =>
    obtain ⟨hmem, -, hlt⟩ := ih
    obtain ⟨hzmem, hzdig, hzr, -⟩ := child_spec hinv hpar hmem hz
    refine ⟨hzmem, hzdig, .inr ?_⟩
    rcases hlt with rfl | hlt <;> omega

lemma orderDag_mem {l c : Certificate} (hl : l ∈ cn.genesis ++ received)
    (hc : c ∈ cn.orderDag l s) :
    c ∈ cn.genesis ++ received ∧ c.round ≤ l.round := by
  obtain ⟨out, hyields, heq⟩ := orderDag_eq cn s l
  rw [heq] at hc
  obtain ⟨⟨d, hmem⟩, -⟩ := mem_finish.mp hc
  obtain ⟨hrec, -, h | h⟩ := reach_spec hinv hpar hl rfl (hyields.reach _ hmem)
  · cases h
    exact ⟨hrec, le_refl _⟩
  exact ⟨hrec, le_of_lt h⟩

end

lemma recordAll_le {B : Nat} {xs : List Certificate} (hs : Tops s)
    (hle : s.lastCommittedRound ≤ B) (hxs : ∀ x ∈ xs, x.round ≤ B) :
    (recordAll cn s xs).lastCommittedRound ≤ B := by
  induction xs generalizing s with
  | nil => exact hle
  | cons x xs ih =>
    refine ih (tops_update s x cn.gcDepth) ?_ fun y hy => hxs y (List.mem_cons_of_mem _ hy)
    rw [lastCommittedRound_update hs]
    exact max_le hle (hxs x (List.mem_cons_self ..))

-- ==== runs are traces

/-- Flattening a list of leaders of increasing rounds, move by move. -/
lemma Trace.commitLeaders {ls : List Certificate} (h : Trace cn P cs ks s)
    (hpair : ls.Pairwise (fun a b => a.round < b.round))
    (hls : ∀ l ∈ ls, IsLeader cn cs s l) :
    Trace cn P cs (ks ++ (cn.commitLeaders s ls).2)
      (cn.commitLeaders s ls).1 := by
  induction ls generalizing ks s with
  | nil =>
    show Trace cn P cs (ks ++ []) s
    rw [List.append_nil]
    exact h
  | cons l ls ih =>
    obtain ⟨hlt, hpair⟩ := List.pairwise_cons.mp hpair
    have hl := hls l (List.mem_cons_self ..)
    -- the sub-DAG of `l` stays below the leaders still to come
    have hlcr : (recordAll cn s (cn.orderDag l s)).lastCommittedRound ≤ l.round :=
      recordAll_le h.inv.tops (le_of_lt hl.above) fun x hx =>
        (orderDag_mem h.inv h.parents hl.mem hx).2
    have hrest : ∀ l' ∈ ls, IsLeader cn cs (recordAll cn s (cn.orderDag l s)) l' := by
      intro l' hl'
      have h' := hls l' (List.mem_cons_of_mem _ hl')
      have := hlt l' hl'
      exact ⟨h'.mem, by omega, h'.even, h'.key⟩
    have hstep := ih (h.commit hl) hpair hrest
    rw [List.append_assoc] at hstep
    exact hstep

lemma run_concat (cn : Consensus) (cs : List Certificate) (c : Certificate) :
    run cn (cs ++ [c]) = step cn (run cn cs) c :=
  List.foldl_concat ..

lemma step_cases (cn : Consensus) (node : Node) (c : Certificate) :
    (∃ e, node.aborted = some e ∧ step cn node c = node)
    ∨ (node.aborted = none ∧ ∃ e, cn.receive node.state c = .error e
      ∧ step cn node c = { node with aborted := some e })
      ∨ (node.aborted = none ∧ ∃ s ks, cn.receive node.state c = .ok (s, ks)
        ∧ step cn node c = { node with state := s, commits := node.commits ++ ks }) := by
  unfold step
  cases ha : node.aborted with
  | some e => exact .inl ⟨e, rfl, rfl⟩
  | none =>
    right
    cases hr : cn.receive node.state c with
    | error e => exact .inl ⟨rfl, e, rfl, rfl⟩
    | ok x => exact .inr ⟨rfl, x.1, x.2, rfl, rfl⟩

lemma Trace.receive {ks' : List Commit} {c : Certificate}
    (h : Trace cn P cs ks s) (hc : ParentFirst cn cs c) (hP : P cs ks s c)
    (hr : cn.receive s c = .ok (s', ks')) :
    Trace cn P (cs ++ [c]) (ks ++ ks') s' := by
  have hins := h.insert hc hP
  rcases receive_cases hr with ⟨rfl, rfl⟩ | ⟨d, l, m, ls, hel, hord, heq⟩
  · rw [List.append_nil]
    exact hins
  obtain ⟨hpair, hls⟩ := orderLeaders_spec hins.inv (hel.isLeader hins.inv).1 hord
  have hstep := hins.commitLeaders hpair hls
  rw [← heq] at hstep
  exact hstep

/-- Every parent-first run whose turns meet the condition is a trace, up to
where it aborts. -/
lemma run_trace
    (h : Along (fun pre c =>
      ParentFirst cn pre c ∧ P pre (run cn pre).commits (run cn pre).state c)
      [] cs) :
    ∃ pre, pre.IsPrefix cs
      ∧ Trace cn P pre (run cn cs).commits (run cn cs).state
      ∧ ((run cn cs).aborted = none → pre = cs) := by
  induction cs using List.reverseRecOn with
  | nil => exact ⟨[], List.prefix_refl _, Trace.init, fun _ => rfl⟩
  | append_singleton cs c ih =>
    obtain ⟨hcs, hfirst, hP⟩ := along_concat.mp h
    obtain ⟨pre, hpre, htrace, hall⟩ := ih hcs
    have hpre' := hpre.trans (List.prefix_append cs [c])
    rw [run_concat]
    rcases step_cases cn (run cn cs) c with
      ⟨e, ha, heq⟩ | ⟨ha, e, hr, heq⟩ | ⟨ha, s, ks, hr, heq⟩
    · rw [heq]
      refine ⟨pre, hpre', htrace, fun hn => ?_⟩
      rw [ha] at hn
      cases hn
    · rw [heq]
      exact ⟨pre, hpre', htrace, fun hn => by cases hn⟩
    rw [heq]
    have := hall ha
    subst this
    exact ⟨_, List.prefix_refl _, htrace.receive hfirst hP hr, fun _ => rfl⟩

end HetuEngine.Tusk
