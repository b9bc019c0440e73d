/-
The network of voters, which the network of nodes refines.

In `Reach` one voter moves at a time, and a history `H` lists the votes as
they are signed, the newest first; a vote that is added is vouched for by the
history. Handling an event is a sequence of moves of one voter, so what is
proved by induction over `Reach` holds of the network of nodes (`run_reach`).

# Majorities

What one voter knows is `Local`: whose votes it signs, and that its votes
are those of the height's validators. A majority that a voter has seen is a
majority of the ballots of the history (`Local.majority`), because each
correct vote in it is vouched for. Two quorums of a height share a correct
key by their power (`quorums`).
-/
import HetuEngine.Comet.Network
import HetuEngine.Comet.Proofs.Locks
import HetuEngine.Lib.Locking

namespace HetuEngine.Comet

open Lib Lib.Locking List Function
open Lib.Weight (weigh weigh_filter_add weigh_index_le
  exists_common)
open Relation (ReflTransGen)

-- ==== the network of voters

namespace Network

variable {ι : Type} (net : Network ι) (c : Crypto)

/-- What a correct validator's signature on the vote stands for is in the
history. -/
def Vouched (H : List Signed) (v : Vote) : Prop :=
  v.blockID.sized ∧ ∀ val ∈ (net.validators v.height).validators, net.faulty val.pubKey = false →
    c.signed net.chainID val.pubKey v = true → ∃ e ∈ H, e.pubKey = val.pubKey ∧ e.vote.type = v.type
    ∧ e.vote.height = v.height ∧ e.vote.round = v.round ∧ e.vote.blockID = v.blockID

/-- What is assumed of the causes of a move; `B` restricts the blocks that
are decoded. -/
structure Grants (B : PartSetHeader → Block → Prop) (H : List Signed)
    (x : ι) (k : Cause) : Prop where
  vote : ∀ v, k.vote v → net.Vouched c H v
  block : ∀ header b, k.block header b → B header b
  next : ∀ height chainID vals, k.next height chainID vals →
    chainID = net.chainID ∧ vals = net.validators height
  key : ∀ p, k.key p → net.pubKey x = some p

variable [DecidableEq ι]

/-- The voters of a network and the history of their votes. -/
inductive Reach (B : PartSetHeader → Block → Prop) :
    List Signed → (ι → Voter) → Prop
  | start : Reach B [] fun x => (net.start x).voter
  | silent {H : List Signed} {V : ι → Voter} {x : ι} {k : Cause} {n : Voter} (h : Reach B H V)
      (hk : net.Grants c B H x k) (hmove : (V x).Move c k n) (hsame : n.signed = (V x).signed) :
      Reach B H (Function.update V x n)
  | signs {H : List Signed} {V : ι → Voter} {x : ι} {k : Cause} {n : Voter}
      {key : Bytes} {v : Vote} (h : Reach B H V)
      (hk : net.Grants c B H x k) (hmove : (V x).Move c k n) (hsigns : (V x).Signs n key v) :
      Reach B (⟨key, v, (V x).votes⟩ :: H) (Function.update V x n)

variable {net c} {B : PartSetHeader → Block → Prop} {H H' : List Signed}
  {V : ι → Voter} {x : ι} {k : Cause} {n : Voter}

omit [DecidableEq ι] in
lemma Vouched.mono {v : Vote} (h : net.Vouched c H v)
    (hsub : ∀ e ∈ H, e ∈ H') : net.Vouched c H' v := by
  refine ⟨h.1, fun val hval hf hs => ?_⟩
  obtain ⟨e, he, hrest⟩ := h.2 val hval hf hs
  exact ⟨e, hsub e he, hrest⟩

omit [DecidableEq ι] in
lemma Grants.mono (h : net.Grants c B H x k) (hsub : ∀ e ∈ H, e ∈ H') :
    net.Grants c B H' x k :=
  { h with vote := fun v hv => (h.vote v hv).mono hsub }

/-- A move, with the history it leads to. -/
lemma Reach.move (h : net.Reach c B H V) (hk : net.Grants c B H x k)
    (hmove : (V x).Move c k n) :
    ∃ H', (∀ e ∈ H, e ∈ H') ∧ net.Reach c B H' (Function.update V x n) := by
  rcases hmove.signed_cases with hsame | ⟨key, v, hsigns⟩
  · exact ⟨H, fun _ he => he, h.silent hk hmove hsame⟩
  exact ⟨_, fun _ he => mem_cons_of_mem _ he, h.signs hk hmove hsigns⟩

lemma Reach.moves (h : net.Reach c B H V) (hk : net.Grants c B H x k)
    (hmoves : ReflTransGen (Voter.Move · c k) (V x) n) :
    ∃ H', (∀ e ∈ H, e ∈ H') ∧ net.Reach c B H' (Function.update V x n) := by
  induction hmoves with
  | refl =>
    rw [update_eq_self]
    exact ⟨H, fun _ he => he, h⟩
  | @tail n₁ n₂ _ hmove ih =>
    obtain ⟨H₁, hsub, hreach⟩ := ih
    have hmove' : (update V x n₁ x).Move c k n₂ := by
      rw [update_self]
      exact hmove
    obtain ⟨H₂, hsub₂, hreach₂⟩ := hreach.move (hk.mono hsub) hmove'
    rw [update_idem] at hreach₂
    exact ⟨H₂, fun e he => hsub₂ e (hsub e he), hreach₂⟩

/-- What every move of a voter keeps, and a longer history too, holds of
every voter. -/
lemma Reach.invariant {J : List Signed → ι → Voter → Prop}
    (hstart : ∀ x, J [] x (net.start x).voter)
    (hmono : ∀ H H' x n, (∀ e ∈ H, e ∈ H') → J H x n → J H' x n)
    (hstep : ∀ H V x k n, net.Reach c B H V → net.Grants c B H x k →
      (V x).Move c k n → (∀ y, J H y (V y)) → J H x n)
    (h : net.Reach c B H V) (y : ι) : J H y (V y) := by
  induction h generalizing y with
  | start => exact hstart y
  | @silent H V x k n h hk hmove hsame ih =>
    by_cases hy : y = x
    · subst hy
      rw [update_self]
      exact hstep H V y k n h hk hmove ih
    rw [update_of_ne hy]
    exact ih y
  | @signs H V x k n key v h hk hmove hsigns ih =>
    refine hmono H _ y _ (fun e he => mem_cons_of_mem _ he) ?_
    by_cases hy : y = x
    · subst hy
      rw [update_self]
      exact hstep H V y k n h hk hmove ih
    rw [update_of_ne hy]
    exact ih y

/-- The history consists of the votes that were signed. -/
lemma Reach.mem_iff (h : net.Reach c B H V) (e : Signed) :
    e ∈ H ↔ ∃ x, e ∈ (V x).signed := by
  induction h with
  | start =>
    constructor
    · intro he
      cases he
    intro he
    obtain ⟨x, hx⟩ := he
    cases hx
  | @silent H V x k n h hk hmove hsame ih =>
    have hsigned : ∀ y, (update V x n y).signed = (V y).signed := by
      intro y
      by_cases hy : y = x
      · subst hy
        rw [update_self, hsame]
      rw [update_of_ne hy]
    rw [ih]
    simp only [hsigned]
  | @signs H V x k n key v h hk hmove hsigns ih =>
    rw [mem_cons, ih]
    constructor
    · rintro (rfl | ⟨y, hy⟩)
      · refine ⟨x, ?_⟩
        rw [update_self, hsigns.signed]
        exact mem_cons_self
      refine ⟨y, ?_⟩
      by_cases heq : y = x
      · subst heq
        rw [update_self, hsigns.signed]
        exact mem_cons_of_mem _ hy
      rw [update_of_ne heq]
      exact hy
    rintro ⟨y, hy⟩
    by_cases heq : y = x
    · subst heq
      rw [update_self, hsigns.signed] at hy
      exact (mem_cons.mp hy).imp_right fun hy => ⟨y, hy⟩
    rw [update_of_ne heq] at hy
    exact .inr ⟨y, hy⟩

end Network

-- ==== the refinement

namespace Network

variable {ι : Type} {net : Network ι} {c : Primitives}
  {B : PartSetHeader → Block → Prop} {H : List Signed}

/-- An admitted event causes only what is assumed in the network of
voters. -/
lemma Admits.grants {nodes : ι → State} {x : ι} {e : Event}
    (h : net.Admits c nodes x e) (hcanon : c.Canonical net.chainID)
    (hs : (nodes x).voter.Sane) (hH : ∀ y, ∀ sg ∈ (nodes y).signed, sg ∈ H)
    (hB : ∀ header b, ((nodes x).cause c e).block header b → B header b) :
    net.Grants c.toCrypto B H x ((nodes x).cause c e) where
  vote v hv := by
    refine ⟨(vote_of_cause hs hv).2, fun val hval hf hsigned => ?_⟩
    obtain ⟨votes, peerID, added, err, he, -, -, -⟩ := hv
    obtain ⟨y, sg, hsg, hkey, hbytes⟩ := h.authentic v peerID he val hval hf hsigned
    exact ⟨sg, hH y sg hsg, hkey, hcanon _ _ hbytes⟩
  block := hB
  next height chainID vals hnext := by
    obtain ⟨st, id, block, st', happly, rfl, rfl, rfl⟩ := hnext
    exact h.validators st id block st' happly
  key := h.key

variable [DecidableEq ι]

lemma run_concat (ds : List (ι × Event)) (d : ι × Event) :
    net.run c (ds ++ [d]) = deliver c (net.run c ds) d :=
  foldl_append

lemma sane_network (ds : List (ι × Event)) (x : ι) :
    (net.run c ds x).voter.Sane := by
  induction ds using reverseRecOn generalizing x with
  | nil => exact sane_new _ _ _ _
  | append_singleton ds d ih =>
    rw [run_concat]
    unfold deliver
    by_cases hx : x = d.1
    · subst hx
      rw [update_self]
      exact sane_receive (ih d.1) d.2
    rw [update_of_ne hx]
    exact ih x

/-- The network of nodes refines the network of voters. -/
lemma run_reach {ds : List (ι × Event)} (hds : net.Admissible c ds)
    (hcanon : c.Canonical net.chainID)
    (hB : Along (fun before d =>
      ∀ header b, ((net.run c before d.1).cause c d.2).block header b →
        B header b) [] ds) :
    ∃ H, net.Reach c.toCrypto B H fun x => (net.run c ds x).voter := by
  induction ds using reverseRecOn with
  | nil => exact ⟨[], .start⟩
  | append_singleton ds d ih =>
    unfold Admissible at hds
    rw [along_concat] at hds hB
    obtain ⟨H, hreach⟩ := ih hds.1 hB.1
    have hs : (net.run c ds d.1).voter.Sane := sane_network ds d.1
    have hgrants := hds.2.grants (H := H) hcanon hs
      (fun y sg hsg => (hreach.mem_iff sg).mpr ⟨y, hsg⟩) hB.2
    obtain ⟨H', -, hreach'⟩ := hreach.moves hgrants (receive_moves hs d.2)
    refine ⟨H', ?_⟩
    have hvoters : (fun x => (net.run c (ds ++ [d]) x).voter) = update
        (fun x => (net.run c ds x).voter) d.1 ((net.run c ds d.1).receive c d.2).voter := by
      rw [run_concat]
      unfold deliver
      funext x
      by_cases hx : x = d.1
      · subst hx
        rw [update_self, update_self]
      rw [update_of_ne hx, update_of_ne hx]
    rw [hvoters]
    exact hreach'

end Network

-- ==== one voter

namespace Network

variable {ι : Type} (net : Network ι) (c : Crypto)

/-- What holds of one voter of the network. -/
structure Local (H : List Signed) (x : ι) (n : Voter) : Prop where
  sound : n.Sound c
  pubKey : ∀ p, n.pubKey = some p → net.pubKey x = some p
  signed : ∀ e ∈ n.signed, net.pubKey x = some e.pubKey
  chainID : n.votes.chainID = net.chainID
  valSet : n.votes.valSet = net.validators n.height
  counts : n.votes.Counts c (net.Vouched c H)

variable {net c} {B : PartSetHeader → Block → Prop} {H H' : List Signed}
  {V : ι → Voter} {x : ι} {k : Cause} {n n' : Voter}

lemma Local.mono (h : net.Local c H x n) (hsub : ∀ e ∈ H, e ∈ H') :
    net.Local c H' x n :=
  { h with counts := h.counts.mono fun _ hv => hv.mono hsub }

lemma local_start (x : ι) : net.Local c [] x (net.start x).voter := by
  refine ⟨sound_new _ _ _ _ _, fun p hp => ?_,
    forall_mem_nil _, net.chain_chainID x, net.chain_validators x, HeightVoteSet.counts_new _ _ _ _⟩
  have hp : (if (net.config x).privValidator then net.pubKey x else none) = some p := hp
  split at hp
  · exact hp
  cases hp

lemma Local.move (h : net.Local c H x n) (hk : net.Grants c B H x k)
    (hmove : n.Move c k n') : net.Local c H x n' := by
  have hvotes : n'.votes.chainID = net.chainID
      ∧ n'.votes.valSet = net.validators n'.height ∧ n'.votes.Counts c (net.Vouched c H) := by
    rcases hmove.height_cases with hsame | ⟨-, hheight, -, chainID, vals, ext, hnew, hnext⟩
    · rw [hsame]
      rcases hmove.votes_eq_or_grows with hlt | heq | hgrows
      · omega
      · rw [heq]
        exact ⟨h.chainID, h.valSet, h.counts⟩
      have hframe := hgrows.frame
      exact ⟨(congrArg (fun f => f.1) hframe).trans h.chainID,
        (congrArg (fun f => f.2.2.1) hframe).trans h.valSet, h.counts.grows (hgrows.mono hk.vote)⟩
    obtain ⟨hchain, hvals⟩ := hk.next _ _ _ hnext
    rw [hnew, hheight]
    exact ⟨hchain, hvals, HeightVoteSet.counts_new _ _ _ _⟩
  refine
    { sound := hmove.sound (fun v hv => (hk.vote v hv).1) h.sound
      pubKey := fun p hp => ?_
      signed := ?_
      chainID := hvotes.1
      valSet := hvotes.2.1
      counts := hvotes.2.2 }
  · rcases hmove.pubKey_cases with hsame | ⟨q, hq, hkey⟩
    · exact h.pubKey p (hsame.symm.trans hp)
    obtain rfl := Option.some.inj (hq.symm.trans hp)
    exact hk.key q hkey
  rcases hmove.signed_cases with hsame | ⟨key, v, hsigns⟩
  · rw [hsame]
    exact h.signed
  rw [hsigns.signed]
  intro e he
  rcases mem_cons.mp he with rfl | he
  · exact h.pubKey key hsigns.pubKey
  exact h.signed e he

lemma Reach.local [DecidableEq ι] (h : net.Reach c B H V) (x : ι) :
    net.Local c H x (V x) :=
  h.invariant (J := net.Local c) local_start (fun _ _ _ _ hsub hJ => hJ.mono hsub)
    (fun _ _ x _ _ _ hk hmove hJ => (hJ x).move hk hmove) x

end Network

-- ==== quorums

lemma powerOf_le (vals : ValidatorSet) (p : Bytes → Bool) {A : List Nat} (h : A.Nodup)
    (hA : ∀ i ∈ A, ∃ val, vals.validators[i]? = some val ∧ p val.pubKey = true) :
    (weigh vals.powerAt A : Int) ≤ vals.powerOf p := by
  have hle := weigh_index_le vals.validators
    (fun val => if p val.pubKey then val.votingPower.toNat else 0) h
  have hsum : ∀ l : List Validator,
      (l.map fun val => if p val.pubKey then val.votingPower.toNat else 0).sum
        = ((l.filter fun val => p val.pubKey).map
            fun val => val.votingPower.toNat).sum := by
    intro l
    simp [sum_map_ite]
  have hweigh : weigh vals.powerAt A = weigh (fun i => (vals.validators[i]?).elim
      0 fun val => if p val.pubKey then val.votingPower.toNat else 0) A := by
    refine congrArg sum (map_congr_left fun i hi => ?_)
    obtain ⟨val, hval, hp⟩ := hA i hi
    unfold ValidatorSet.powerAt
    rw [hval]
    exact (if_pos hp).symm
  rw [← hweigh, hsum] at hle
  refine (Int.ofNat_le.mpr hle).trans (le_of_eq (sum_toNat fun val hval => ?_))
  exact vals.power_pos val (mem_of_mem_filter hval)

namespace Network

variable {ι : Type} (net : Network ι)

/-- The quorums of a height: keys of validators with more than two thirds of
the power. -/
def quorums (height : Int) : Quorums Bytes where
  faulty p := net.faulty p = true
  quorum S := ∃ A : List Nat, A.Nodup
    ∧ 2 * (net.validators height).totalVotingPower < 3 * weigh (net.validators height).powerAt A
    ∧ ∀ i ∈ A, ∃ val, (net.validators height).validators[i]? = some val ∧ val.pubKey ∈ S
  mono := by
    intro S T hsub hS
    obtain ⟨A, hnodup, hpower, hA⟩ := hS
    refine ⟨A, hnodup, hpower, fun i hi => ?_⟩
    obtain ⟨val, hval, hmem⟩ := hA i hi
    exact ⟨val, hval, hsub hmem⟩
  common := by
    intro S T hS hT
    obtain ⟨A, hAnodup, hApower, hA⟩ := hS
    obtain ⟨C, hCnodup, hCpower, hC⟩ := hT
    -- the correct part of the second quorum still meets the first
    have hfaulty := net.faulty_power height
    generalize net.validators height = vals at *
    let bad : Nat → Bool := fun i => (vals.validators[i]?).any fun val => net.faulty val.pubKey
    have hsplit := weigh_filter_add vals.powerAt bad C
    have hbad := powerOf_le vals net.faulty (hCnodup.filter bad) fun i hi => by
      obtain ⟨hmem, hi⟩ := List.mem_filter.mp hi
      obtain ⟨val, hval, -⟩ := hC i hmem
      refine ⟨val, hval, ?_⟩
      simpa [bad, hval] using hi
    have hbound : ∀ ks : List Nat, ks.Nodup →
        weigh vals.powerAt ks ≤ vals.totalVotingPower.toNat := by
      intro ks hks
      have := weigh_powerAt_le vals hks
      omega
    obtain ⟨i, hi, hi'⟩ := exists_common hbound hAnodup (hCnodup.filter fun i => !bad i) (by omega)
    obtain ⟨hmem, hgood⟩ := List.mem_filter.mp hi'
    obtain ⟨val, hval, hS⟩ := hA i hi
    obtain ⟨val', hval', hT⟩ := hC i hmem
    obtain rfl := Option.some.inj (hval.symm.trans hval')
    refine ⟨val.pubKey, hS, hT, ?_⟩
    simpa [bad, hval] using hgood

end Network

-- ==== ballots

def SignedMsgType.phase : SignedMsgType → Phase
  | .precommit => .precommit
  | _ => .prevote

def Signed.ballot (e : Signed) : Ballot Bytes Bytes where
  voter := e.pubKey
  round := e.vote.round
  phase := e.vote.type.phase
  value := e.vote.blockID.hash

def ballots (height : Int) (H : List Signed) : List (Ballot Bytes Bytes) :=
  (H.filter fun e => e.vote.height = height).map Signed.ballot

lemma mem_ballots {height : Int} {H : List Signed} {b : Ballot Bytes Bytes} :
    b ∈ ballots height H ↔ ∃ e ∈ H, e.vote.height = height ∧ e.ballot = b := by
  unfold ballots
  simp [and_assoc]

namespace Network

variable {ι : Type} {net : Network ι} {c : Crypto} {H H' : List Signed}
  {height round : Int} {type : SignedMsgType} {id : BlockID}

/-- Validators with more than two thirds of the power have signed votes of a
height, round and type for a block id. -/
def Backed (net : Network ι) (c : Crypto) (H : List Signed)
    (height round : Int) (type : SignedMsgType) (id : BlockID) : Prop :=
  ∃ A : List Nat, A.Nodup
    ∧ 2 * (net.validators height).totalVotingPower
      < 3 * weigh (net.validators height).powerAt A
    ∧ ∀ i ∈ A, ∃ val v, (net.validators height).validators[i]? = some val
      ∧ c.SignedBy net.chainID val v ∧ net.Vouched c H v
      ∧ v.type = type ∧ v.height = height ∧ v.round = round ∧ v.blockID = id

lemma Backed.mono (h : net.Backed c H height round type id)
    (hsub : ∀ e ∈ H, e ∈ H') : net.Backed c H' height round type id := by
  obtain ⟨A, hnodup, hpower, hA⟩ := h
  refine ⟨A, hnodup, hpower, fun i hi => ?_⟩
  obtain ⟨val, v, hval, hsigned, hv, hrest⟩ := hA i hi
  exact ⟨val, v, hval, hsigned, hv.mono hsub, hrest⟩

/-- What the history has of the correct validators of a majority. -/
lemma Backed.quorum (h : net.Backed c H height round type id) :
    (net.quorums height).quorum fun p => net.faulty p = true
      ∨ ∃ e ∈ H, e.pubKey = p ∧ e.vote.type = type ∧ e.vote.height = height
        ∧ e.vote.round = round ∧ e.vote.blockID = id := by
  obtain ⟨A, hnodup, hpower, hA⟩ := h
  refine ⟨A, hnodup, hpower, fun i hi => ?_⟩
  obtain ⟨val, v, hval, hsigned, hv, rfl, rfl, rfl, rfl⟩ := hA i hi
  refine ⟨val, hval, ?_⟩
  cases hf : net.faulty val.pubKey with
  | true => exact .inl hf
  | false => exact .inr (hv.2 val (List.mem_of_getElem? hval) hf hsigned.2)

/-- As a majority of ballots. -/
lemma Backed.majority (h : net.Backed c H height round type id) :
    Majority (net.quorums height) (ballots height H) type.phase round
      id.hash := by
  refine (net.quorums height).mono ?_ h.quorum
  intro p hp
  rcases hp with hf | ⟨e, he, hkey, ht, hh, hr, hb⟩
  · exact .inl hf
  refine .inr (mem_ballots.mpr ⟨e, he, hh, ?_⟩)
  unfold Signed.ballot
  rw [hkey, ht, hr, hb]

variable {x : ι} {n : Voter}

section

variable (h : net.Local c H x n)
  (hid : VoteSet.twoThirdsMajority (n.votes.getVoteSet round type) = some id)

include h hid

/-- A majority that a voter has seen is one of votes that were signed. -/
lemma Local.backed : net.Backed c H n.height round type id := by
  have hquorum := h.counts.quorum_of_majority (fun _ hv => hv.1) hid
  rw [h.valSet, h.chainID, h.sound.sane.votes] at hquorum
  exact hquorum

lemma Local.majority : Majority (net.quorums n.height)
    (ballots n.height H) type.phase round id.hash :=
  (h.backed hid).majority

end

end Network

end HetuEngine.Comet
