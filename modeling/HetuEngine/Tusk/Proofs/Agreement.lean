/-
Total-order agreement: two nodes' outputs are prefixes of one another, as
long as nothing reaches a node too late.

# The argument

A node flattens a leader over the DAG it has, and two nodes have different
DAGs. What they have in common is what is due: a certificate the frontier
has not passed and the garbage collection has not reached is in the DAG of
every node that received the leader (`Inv.present`). The rest is of two
kinds. Certificates beyond the garbage collection depth may or may not be
there; the walk visits them and the result drops them, and since their
parents are beyond the depth too they change nothing else
(`Worklist.Yields.filter`). Certificates the frontier has passed must not be
there, and this is the condition: a node never receives a certificate below
its author's last committed round, unless it is beyond the garbage
collection depth (`Timely`). Then the output is the ledger of the leaders
(`run_ledger`), and leaders agree.

# Where it fails

`State::update` drops every certificate of an author below the author's last
committed round, committed or not. A node that has such a certificate when
its author's next one is committed loses it; a node that receives it
afterwards keeps it, and commits it with the next leader that references it.
`total_order_agreement_fails` is this run on three authorities.
-/
import HetuEngine.Tusk.Proofs.Leaders

namespace HetuEngine.Tusk

open Lib Lib.Weight Narwhal Consensus Trio Node

variable {cn : Consensus} {S : Set Certificate}

-- ==== in time

/-- A certificate arrives in time: not below its author's last committed
round, unless it is beyond the garbage collection depth. -/
def Timely (gcDepth : Nat) (s : State) (c : Certificate) : Prop :=
  s.Ahead c.origin c.round ∨ ¬ s.Recent gcDepth c.round

instance (gcDepth : Nat) (s : State) (c : Certificate) : Decidable (Timely gcDepth s c) :=
  inferInstanceAs (Decidable (_ ∨ _))

/-- The condition of a turn: what it is fed, in time. -/
abbrev timelyGuard (cn : Consensus) : Guard := fun cs _ s c => Fed cn cs c ∧ Timely cn.gcDepth s c

variable {cs : List Certificate} {ks : List Commit}

lemma Trace.imp {P Q : Guard} (hPQ : ∀ cs ks s c, P cs ks s c → Q cs ks s c)
    {s : State} (h : Trace cn P cs ks s) : Trace cn Q cs ks s := by
  induction h with
  | init => exact Trace.init
  | insert _ hc hP ih => exact ih.insert hc (hPQ _ _ _ _ hP)
  | commit _ hl ih => exact ih.commit hl

/-- Nothing in the DAG is below its author's last committed round, except
beyond the garbage collection depth. -/
def Kept (gcDepth : Nat) (s : State) : Prop :=
  ∀ {r n x}, s.entry r n = some x → s.Ahead n r ∨ ¬ s.Recent gcDepth r

lemma kept_recordAll : ∀ (xs : List Certificate) {s : State},
    Kept cn.gcDepth s → Kept cn.gcDepth (recordAll cn s xs) := by
  intro xs
  induction xs with
  | nil => intro s h; exact h
  | cons x xs ih => intro s _; exact ih fun hx => .inl ((s.entry_update ..).mp hx).2.1

lemma Trace.kept {s : State} (h : Trace cn (timelyGuard cn) cs ks s) :
    Kept cn.gcDepth s := by
  induction h with
  | init =>
    intro r n x hx
    left
    intro m hm
    rw [lookup_new hm]
    exact Nat.zero_le r
  | @insert cs ks s c h hc hP ih =>
    intro r n x hx
    rw [entry_insert] at hx
    split at hx
    next hrn =>
      rw [hrn.1, hrn.2]
      exact hP.2
    next => exact ih hx
  | commit _ _ ih => exact kept_recordAll _ ih

-- ==== what is walked

variable {received : List Certificate} {s : State}

/-- Rounds received do not wrap, and neither does round 0. -/
lemma recent_iff (hfit : cn.gcDepth < 2 ^ 64) (hv : View cn S received s)
    {c : Certificate} (hc : c ∈ cn.genesis ++ received) :
    s.Recent cn.gcDepth c.round
      ↔ s.lastCommittedRound ≤ c.round + cn.gcDepth := by
  have hfits : c.round + cn.gcDepth < 2 ^ 64 := by
    rcases List.mem_append.mp hc with hg | hr
    · have := Certificate.genesis_round hg
      omega
    exact hv.fits c hr
  exact State.recent_of_fits hfits

/-- The test `order_dag` ends with, on an item of the walk. -/
def keeps (cn : Consensus) (s : State) (x : Digest × Certificate) : Bool :=
  s.lastCommittedRound ≤ u64 (x.2.round + cn.gcDepth)

/-- What a parent digest leads to in the DAG is what is due in the set, but
for what the result drops. -/
lemma parentOf_filter (hS : ValidSet cn S) (hfit : cn.gcDepth < 2 ^ 64)
    (hv : View cn S received s) (hkept : Kept cn.gcDepth s)
    {x : Certificate} (hx : x ∈ cn.genesis ++ received) {d : Digest}
    (hd : d ∈ x.header.parents.toList) :
    (parentOf s x d).filter (keeps cn s) = dueParent cn S s.frontier d := by
  obtain ⟨q, hq, rfl, hqr⟩ := hv.closed x hx d hd
  have hround : u64Sub x.round 1 = q.round := by
    rw [show u64Sub x.round 1 = x.round - 1 from wordSub_of_le (by omega)]
    omega
  -- an entry of the round below with this digest is `q`
  have hent : ∀ {n y}, s.entry (u64Sub x.round 1) n = some y →
      y.1 = q.digest cn.crypto → y = (q.digest cn.crypto, q) ∧ n = q.origin := by
    intro n y hy hyd
    obtain ⟨hdig, -, ho, hrec⟩ := hv.inv.spec hy
    have heq : y.2 = q := hS.identified (hv.sub _ hrec) (hv.sub _ hq) (hdig.symm.trans hyd)
    exact ⟨Prod.ext hyd heq, by rw [← heq, ho]⟩
  by_cases hdue : s.frontier.Due cn.gcDepth q
  · rw [hS.dueParent_of_due (hv.sub _ hq) hdue]
    have hrecent : s.Recent cn.gcDepth q.round := (recent_iff hfit hv hq).mpr hdue.2
    have hahead : s.Ahead q.origin q.round := fun m hm => le_of_lt (hdue.1 m hm)
    obtain ⟨y, hy⟩ := Option.isSome_iff_exists.mp (hv.inv.present q hq hahead hrecent)
    obtain ⟨hyd, hyr, hyo, hyrec⟩ := hv.inv.spec hy
    have hyq : y.2 = q := hS.unique (hv.sub _ hyrec) (hv.sub _ hq) hyo hyr
    have hyeq : y = (q.digest cn.crypto, q) := Prod.ext (by rw [hyd, hyq]) hyq
    subst hyeq
    have hskip : s.lastCommitted.lookup q.origin ≠ some q.round :=
      fun hm => absurd (hdue.1 _ hm) (lt_irrefl _)
    have hpar := parentOf_of_entry (x := x) (y := (q.digest cn.crypto, q))
      (fun n z hz hzd => (hent hz hzd).1) ⟨q.origin, by rw [hround]; exact hy⟩ hskip
    rw [show parentOf s x (q.digest cn.crypto) = some (q.digest cn.crypto, q) from hpar]
    exact if_pos (decide_eq_true hrecent)
  rw [hS.dueParent_of_not_due (hv.sub _ hq) hdue]
  cases hp : parentOf s x (q.digest cn.crypto) with
  | none => rfl
  | some y =>
    obtain ⟨hyd, ⟨n, hy⟩, hskip⟩ := parentOf_eq_some hp
    obtain ⟨rfl, rfl⟩ := hent hy hyd
    rw [hround] at hy
    refine if_neg ?_
    intro hkeep
    have hrecent : s.Recent cn.gcDepth q.round := of_decide_eq_true hkeep
    refine hdue ⟨fun m hm => ?_, (recent_iff hfit hv hq).mp hrecent⟩
    rcases hkept hy with hahead | hnot
    · have hle := hahead m hm
      rcases Nat.lt_or_eq_of_le hle with hlt | heq
      · exact hlt
      exact absurd (heq ▸ hm) hskip
    exact absurd hrecent hnot

/-- The walk over the DAG, but for what the result drops, is the walk over
what is due. -/
lemma orderDag_eq_flatten (hS : ValidSet cn S)
    (hv : View cn S received s) (hkept : Kept cn.gcDepth s)
    {l : Certificate} (hl : IsLeader cn received s l) :
    cn.orderDag l s = flatten cn S s.frontier l := by
  have habove := hl.above
  have hlrec : l ∈ received := by
    rcases List.mem_append.mp hl.mem with hg | hr
    · have := Certificate.genesis_round hg
      omega
    exact hr
  have hfit : cn.gcDepth < 2 ^ 64 := by
    have := hv.fits l hlrec
    omega
  obtain ⟨out, hyields, heq⟩ := orderDag_eq cn s l
  -- items of the walk: received, under their own digest
  have hwalk : Worklist.Yields Prod.fst (dueChildren cn S s.frontier)
      (l.digest cn.crypto, l) (out.filter (keeps cn s)) := hyields.filter
    (P := fun x => x.2 ∈ cn.genesis ++ received ∧ x.1 = x.2.digest cn.crypto)
    (fun x y hx hy hd => by
      have h2 : x.2 = y.2 := hS.identified (hv.sub _ hx.1) (hv.sub _ hy.1)
        (by rw [← hx.2, ← hy.2, hd])
      exact Prod.ext hd h2)
    (fun x hx y hy => by
      obtain ⟨hrec, hdig, -, -⟩ := child_spec hv.inv hv.closed hx.1 hy
      exact ⟨hrec, hdig⟩)
    (fun x hx _ => by
      unfold dagChildren dueChildren
      rw [List.filter_filterMap]
      exact List.filterMap_congr fun d hd => parentOf_filter hS hfit hv hkept hx.1 hd)
    (fun x hx hdrop y hy => by
      obtain ⟨hrec, -, hr, -⟩ := child_spec hv.inv hv.closed hx.1 hy
      have hnot : ¬ s.Recent cn.gcDepth x.2.round := of_decide_eq_false hdrop
      refine decide_eq_false ?_
      intro hy'
      rw [recent_iff hfit hv hx.1] at hnot
      have := (recent_iff hfit hv hrec).mp hy'
      omega)
    ⟨hl.mem, rfl⟩
    (decide_eq_true ((recent_iff hfit hv hl.mem).mpr (by omega)))
  rw [heq, flatten_eq hwalk]
  unfold finish
  rw [List.filter_map]
  rfl

-- ==== the ledger

lemma frontier_update (hs : Tops s) (c : Certificate) (gc : Nat) :
    (s.update c gc).frontier = s.frontier.record c := by
  unfold State.frontier Frontier.record
  rw [lastCommittedRound_update hs]
  congr 1
  funext n
  exact s.lookup_update c gc n

lemma frontier_recordAll : ∀ (xs : List Certificate) {s : State}, Tops s →
    (recordAll cn s xs).frontier = xs.foldl Frontier.record s.frontier := by
  intro xs
  induction xs with
  | nil => intro s _; rfl
  | cons x xs ih =>
    intro s hs
    rw [List.foldl_cons, ← frontier_update hs x cn.gcDepth]
    exact ih (tops_update s x cn.gcDepth)

lemma Trace.ledger (hS : ValidSet cn S)
    (h : Trace cn (timelyGuard cn) cs ks s) (hmem : ∀ c ∈ cs, c ∈ S) :
    Tusk.ledger cn S (ks.map Commit.leader)
      = (ks.flatMap Commit.sequence, s.frontier) := by
  induction h with
  | init => rfl
  | insert _ _ _ ih =>
    rw [ih fun c hc => hmem c (List.mem_append_left _ hc)]
    rfl
  | @commit cs ks s l h hl ih =>
    have hfed := h.imp (Q := fedGuard cn) fun _ _ _ _ hP => hP.1
    have hflat := orderDag_eq_flatten hS (hfed.view hS hmem) h.kept hl
    rw [List.map_append]
    show Tusk.ledger cn S (ks.map Commit.leader ++ [l]) = _
    rw [ledger_concat, ih hmem, frontier_recordAll _ h.inv.tops]
    unfold ledgerStep
    simp only
    rw [← hflat]
    simp

lemma run_ledger (hS : ValidSet cn S) (hmem : ∀ c ∈ cs, c ∈ S)
    (hfed : Along (Fed cn) [] cs)
    (htimely : Along (fun pre c => Timely cn.gcDepth (run cn pre).state c) []
      cs) :
    (run cn cs).output = (Tusk.ledger cn S (run cn cs).leaders).1 := by
  have hguard : Along (fun pre c => ParentFirst cn pre c
      ∧ timelyGuard cn pre (run cn pre).commits (run cn pre).state c) [] cs :=
    (hfed.and htimely).imp fun pre c h => ⟨h.1.first, h.1, h.2⟩
  obtain ⟨pre, hpre, htrace, -⟩ := run_trace hguard
  exact (congrArg Prod.fst (htrace.ledger hS fun c hc => hmem c (hpre.subset hc))).symm

namespace Trio

/-- The certificates of `earlyFirst` in another order, `c1` still before
`c2` is committed. -/
def shuffled : List Certificate := [a1, c1, b2, c2, a2, b3, a3, a4, b4', b5, a5', a6', a7']

lemma shuffled_checked : ListDelivery (task 50) both shuffled
    ∧ Along (fun pre c => Timely 50 (run (task 50) pre).state c) []
      shuffled
    ∧ Along (fun pre c => Timely 50 (run (task 50) pre).state c) []
      earlyFirst := by
  decide +kernel

end Trio

-- ==== the main result

/-- Two nodes' outputs are prefixes of one another while the total stake is
below 2³¹, the rounds received leave room for the garbage collection depth,
and every certificate arrives in time. -/
theorem total_order_agreement (cn : Consensus) (S : Set Certificate)
    (hS : ValidSet cn S) (as bs : List Certificate) (hA : Delivery cn S as)
    (hB : Delivery cn S bs) (hstake : cn.committee.totalStake < 2 ^ 31)
    (hfits : ∀ c ∈ as ++ bs, c.round + cn.gcDepth < 2 ^ 64)
    (htimelyA : Along
      (fun pre c => Timely cn.gcDepth (Node.run cn pre).state c) [] as)
    (htimelyB : Along
      (fun pre c => Timely cn.gcDepth (Node.run cn pre).state c) [] bs) :
    (Node.run cn as).output <+: (Node.run cn bs).output
      ∨ (Node.run cn bs).output <+: (Node.run cn as).output := by
  have hA' := hA.fed hS fun c hc => hfits c (List.mem_append_left _ hc)
  have hB' := hB.fed hS fun c hc => hfits c (List.mem_append_right _ hc)
  rw [run_ledger hS hA.mem hA' htimelyA, run_ledger hS hB.mem hB' htimelyB]
  rcases leaders_comparable hS hstake hA.mem hA' hB.mem hB' with h | h
  · obtain ⟨ms, hms⟩ := h
    rw [← hms]
    exact .inl (ledger_append _ ms)
  obtain ⟨ms, hms⟩ := h
  rw [← hms]
  exact .inr (ledger_append _ ms)

theorem total_order_agreement_shuffled :
    (Node.run (Trio.task 50) Trio.shuffled).output.length = 7
      ∧ ((Node.run (Trio.task 50) Trio.earlyFirst).output
        <+: (Node.run (Trio.task 50) Trio.shuffled).output
        ∨ (Node.run (Trio.task 50) Trio.shuffled).output
          <+: (Node.run (Trio.task 50) Trio.earlyFirst).output) :=
  ⟨by decide +kernel, total_order_agreement _ _
    both_checked.1.validSet _ _ both_checked.2.2.delivery
    shuffled_checked.1.delivery (by decide +kernel)
    (by decide +kernel) shuffled_checked.2.2
    shuffled_checked.2.1⟩

/-- The leader of round 2 is `c2`, which does not reference its author's
first certificate `c1`. The node that has `c1` when it commits `c2` prunes
it; the node that receives `c1` after that commit keeps it, and writes it
when the leader of round 4, which reaches `c1`, is committed. The outputs
part at the third certificate. -/
theorem total_order_agreement_fails :
    ¬ ∀ (cn : Consensus) (S : Set Certificate), ValidSet cn S →
      ∀ as bs, Delivery cn S as → Delivery cn S bs →
        (Node.run cn as).output <+: (Node.run cn bs).output
          ∨ (Node.run cn bs).output <+: (Node.run cn as).output := by
  intro h
  have hor := h (task 50) _ both_checked.1.validSet _ _
    both_checked.2.1.delivery both_checked.2.2.delivery
  exact absurd hor (by decide +kernel)

end HetuEngine.Tusk
