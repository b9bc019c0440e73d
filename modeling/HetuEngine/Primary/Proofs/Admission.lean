/-
Which certificates the core stores and sends to consensus.

`Certificate::verify` accepts the genesis certificates without further
checks, and recognises them with `PartialEq`: header id, round and author.
So it accepts every certificate with the default id, round 0 and an author
of the committee, whatever its payload, parents and votes (`Lookalike`).
Everything else it accepts carries a quorum of signatures.

`admission_sound`: in every run in which no look-alike is received, each
certificate with a payload or parents that the core stores or sends to
consensus has the votes of distinct authorities with the stake of a quorum;
the votes of the others were checked against the certificate's digest, our
own vote is made here. `admission_sound_fails`: a look-alike with a payload
and no votes is stored and sent.

`Signed` is what a signature is; the checks of `Crypto` are assumed to accept
nothing else (`SoundChecks`).
-/
import HetuEngine.Primary.Proofs.Steps

namespace HetuEngine.Primary

open Lib Lib.Fallible Lib.Weight Narwhal Certificate Quad VotesAggregator AList

/-- A relation between keys, digests and the signatures of the key's owner
on the digest. -/
abbrev Signatures := PublicKey → Digest → Signature → Prop

structure SoundChecks (cr : Crypto) (Signed : Signatures) : Prop where
  verify : ∀ sig d k, cr.verify sig d k = true → Signed k d sig
  verifyBatch : ∀ d votes, cr.verifyBatch d votes = true → ∀ v ∈ votes, Signed v.1 d v.2

/-- A certificate that passes for one of the genesis and is not. -/
def Lookalike (com : Committee) (c : Certificate) : Prop :=
  (∃ g ∈ Certificate.genesis com, Certificate.partialEq c g = true) ∧ c ∉ Certificate.genesis com

instance (com : Committee) (c : Certificate) : Decidable (Lookalike com c) :=
  inferInstanceAs (Decidable (_ ∧ _))

/-- A certificate as it should be: a well-formed header signed by an
authority, and signatures on the certificate's digest by distinct
authorities with the stake of a quorum. -/
structure Certified (cr : Crypto) (com : Committee) (Signed : Signatures)
    (c : Certificate) : Prop where
  id : c.header.digest cr = c.header.id
  author : 0 < com.stake c.origin
  signed : Signed c.origin c.header.id c.header.signature
  distinct : (voters c.votes).Nodup
  stake : ∀ k ∈ voters c.votes, 0 < com.stake k
  quorum : com.quorumThreshold ≤ weigh com.stake (voters c.votes)
  votes : ∀ v ∈ c.votes, Signed v.1 (c.digest cr) v.2

-- ==== verify

variable {cr : Crypto} {com : Committee} {Signed : Signatures}

/-- The loop over the votes: voters that are new, distinct and have stake;
the weight may have wrapped, so it is at most theirs. -/
lemma checkVotes_ok {votes : List (PublicKey × Signature)}
    {weight total : Nat} {used : List PublicKey}
    (h : checkVotes com votes weight used = .ok total) :
    (voters votes).Nodup ∧ (∀ k ∈ voters votes, k ∉ used)
    ∧ (∀ k ∈ voters votes, 0 < com.stake k)
    ∧ total ≤ weight + weigh com.stake (voters votes) := by
  induction votes generalizing weight used with
  | nil =>
    cases h
    exact ⟨List.nodup_nil, by simp [voters], by simp [voters], le_refl _⟩
  | cons v votes ih =>
    obtain ⟨hused, h⟩ := ensure_bind_eq_ok.mp h
    obtain ⟨hstake, h⟩ := ensure_bind_eq_ok.mp h
    obtain ⟨hnodup, hnew, hpos, hle⟩ := ih h
    have hv : v.1 ∉ voters votes := fun hmem => hnew v.1 hmem (List.mem_cons_self ..)
    refine ⟨List.nodup_cons.mpr ⟨hv, hnodup⟩, ?_, ?_, ?_⟩
    · intro k hk
      rcases List.mem_cons.mp hk with rfl | hk
      · simpa using hused
      exact fun hmem => hnew k hk (List.mem_cons_of_mem _ hmem)
    · intro k hk
      rcases List.mem_cons.mp hk with rfl | hk
      · exact of_decide_eq_true hstake
      exact hpos k hk
    have hword := word_le 32 (weight + com.stake v.1)
    show total ≤ weight + (com.stake v.1 + weigh com.stake (voters votes))
    have : u32 (weight + com.stake v.1) ≤ weight + com.stake v.1 := hword
    omega

lemma header_verify_ok (hsound : SoundChecks cr Signed) {h : Header}
    (hv : h.verify cr com = .ok ()) :
    h.digest cr = h.id ∧ 0 < com.stake h.author
      ∧ Signed h.author h.id h.signature := by
  obtain ⟨hid, hv⟩ := ensure_bind_eq_ok.mp hv
  obtain ⟨hstake, hv⟩ := ensure_bind_eq_ok.mp hv
  obtain ⟨-, hv⟩ := ensure_bind_eq_ok.mp hv
  rw [ensure_eq_ok] at hv
  exact ⟨of_decide_eq_true hid, of_decide_eq_true hstake, hsound.verify _ _ _ hv⟩

variable {c : Certificate}

/-- What `verify` accepts is one of the genesis, a look-alike, or
certified. -/
lemma verify_ok (hsound : SoundChecks cr Signed) (hlook : ¬ Lookalike com c)
    (h : c.verify cr com = .ok ()) :
    c ∈ genesis com ∨ Certified cr com Signed c := by
  unfold verify at h
  split at h
  next hany =>
    left
    by_contra hgen
    exact hlook ⟨List.any_eq_true.mp hany, hgen⟩
  next =>
  right
  obtain ⟨⟨⟩, hheader, h⟩ := bind_eq_ok.mp h
  obtain ⟨weight, hcheck, h⟩ := bind_eq_ok.mp h
  obtain ⟨hquorum, h⟩ := ensure_bind_eq_ok.mp h
  rw [ensure_eq_ok] at h
  obtain ⟨hid, hauthor, hsigned⟩ := header_verify_ok hsound hheader
  obtain ⟨hnodup, -, hpos, hle⟩ := checkVotes_ok hcheck
  rw [Nat.zero_add] at hle
  exact ⟨hid, hauthor, hsigned, hnodup, hpos, le_trans (of_decide_eq_true hquorum) hle,
    hsound.verifyBatch _ _ h⟩

lemma Lookalike.id_eq (h : Lookalike com c) : c.header.id = 0 := by
  obtain ⟨⟨g, hg, heq⟩, -⟩ := h
  rw [(partialEq_iff.mp heq).1, (mem_genesis.mp hg).2]
  rfl

-- ==== the core

/-- A certificate has something to deliver: a payload or parents. -/
def Carries (c : Certificate) : Prop := c.header.payload.entries ≠ [] ∨ c.header.parents.toList ≠ []

/-- A quorum of votes: distinct authorities with the stake of a quorum, and
every vote but our own is a signature on the certificate's digest. -/
structure HasQuorum (p : Setup) (Signed : Signatures) (c : Certificate) :
    Prop where
  distinct : (voters c.votes).Nodup
  quorum : p.committee.quorumThreshold ≤ weigh p.committee.stake (voters c.votes)
  votes : ∀ v ∈ c.votes, v.1 = p.name ∨ Signed v.1 (c.digest p.crypto) v.2

/-- What the core may handle: a quorum, or nothing to deliver. -/
def Admissible (p : Setup) (Signed : Signatures) (c : Certificate) : Prop :=
  Carries c → HasQuorum p Signed c

variable {p : Setup} {node : Node} {e : Event} {H : Header → Prop}
  {C : Certificate → Prop} {s s' : Core}

lemma admissible_of_verify (hsound : SoundChecks p.crypto Signed)
    (hlook : ¬ Lookalike p.committee c)
    (h : c.verify p.crypto p.committee = .ok ()) : Admissible p Signed c := by
  intro hcarries
  rcases verify_ok hsound hlook h with hgen | hcert
  · exfalso
    rw [(mem_genesis.mp hgen).2] at hcarries
    rcases hcarries with hne | hne
    · exact hne rfl
    exact hne rfl
  exact ⟨hcert.distinct, hcert.quorum, fun v hv => .inr (hcert.votes v hv)⟩

/-- The votes collected for the current header, and the certificates made
of such votes. -/
structure Tallied (p : Setup) (Signed : Signatures) (s : Core) : Prop where
  weighed : VotesAggregator.Weighed p.committee s.votesAggregator
  votes : ∀ v ∈ s.votesAggregator.votes, v.1 = p.name
    ∨ Signed v.1 (Certificate.digest p.crypto ⟨s.currentHeader, []⟩) v.2
  assembled : ∀ c, Output.broadcast (.certificate c) ∈ s.log → HasQuorum p Signed c

/-- A vote that may be counted is ours or a signature on what a certificate
of the current header has as digest. -/
lemma Accepted.signed (hsound : SoundChecks p.crypto Signed) {v : Vote}
    (hv : Accepted p s v) : v.author = p.name
    ∨ Signed v.author (digest p.crypto ⟨s.currentHeader, []⟩)
      v.signature := by
  rcases hv with hv | hv
  · exact .inl hv
  right
  obtain ⟨-, hv⟩ := ensure_bind_eq_ok.mp hv
  obtain ⟨hsame, hv⟩ := ensure_bind_eq_ok.mp hv
  rw [Bool.and_eq_true, Bool.and_eq_true, decide_eq_true_iff,
    decide_eq_true_iff, decide_eq_true_iff] at hsame
  obtain ⟨⟨hid, horigin⟩, hround⟩ := hsame
  obtain ⟨-, hv⟩ := ensure_bind_eq_ok.mp hv
  rw [ensure_eq_ok] at hv
  have hdigest : v.digest p.crypto = digest p.crypto ⟨s.currentHeader, []⟩ := by
    unfold Vote.digest
    rw [hid, horigin, hround]
    rfl
  rw [← hdigest]
  exact hsound.verify _ _ _ hv

lemma Tallied.congr (ht : Tallied p Signed s)
    (hagg : s'.votesAggregator = s.votesAggregator)
    (hcur : s'.currentHeader = s.currentHeader)
    (hlog : ∀ c, Output.broadcast (.certificate c) ∈ s'.log →
      Output.broadcast (.certificate c) ∈ s.log) :
    Tallied p Signed s' := by
  refine ⟨?_, ?_, fun c hc => ht.assembled c (hlog c hc)⟩
  · rw [hagg]
    exact ht.weighed
  rw [hagg, hcur]
  exact ht.votes

lemma Tallied.tally (hsound : SoundChecks p.crypto Signed)
    (ht : Tallied p Signed s) {v : Vote} {o : Option Certificate}
    {agg : VotesAggregator} (hv : Accepted p s v)
    (happ : s.votesAggregator.append v p.committee
      s.currentHeader = .ok (o, agg)) :
    Tallied p Signed (s.tally agg o) := by
  obtain ⟨-, hvotes, hcert⟩ := append_spec happ
  obtain ⟨hweighed, hquorum⟩ := append_weighed ht.weighed happ
  have hall : ∀ w ∈ agg.votes, w.1 = p.name
      ∨ Signed w.1 (digest p.crypto ⟨s.currentHeader, []⟩)
        w.2 := by
    rw [hvotes]
    intro w hw
    rcases List.mem_append.mp hw with hw | hw
    · exact ht.votes w hw
    rw [List.mem_singleton.mp hw]
    exact hv.signed hsound
  refine ⟨hweighed, hall, fun c hc => ?_⟩
  rcases broadcast_tally.mp hc with hc | ho
  · exact ht.assembled c hc
  refine ⟨?_, hquorum c ho, ?_⟩
  · rw [hcert c ho]
    exact agg.voters_nodup
  rw [hcert c ho]
  exact hall

lemma Effect.tallied (hsound : SoundChecks p.crypto Signed)
    (he : Effect p H C s s') (ht : Tallied p Signed s) :
    Tallied p Signed s' := by
  cases he with
  | tally hv happ => exact ht.tally hsound hv happ
  | vote hh hne hnew => exact ht.congr rfl rfl fun c => (broadcast_castVote _ _).mp
  | send => exact ht.congr rfl rfl fun c => (broadcast_send _ _ _).mp
  | deliver hd hpar => exact ht.congr rfl rfl fun c => (broadcast_deliver _ _).mp
  | mark | sync | write | suspend => exact ht.congr rfl rfl fun _ => id

structure Admitted (p : Setup) (Signed : Signatures) (s : Core) : Prop where
  stored : ∀ k c, s.store.lookup k = some (.certificate c) → Admissible p Signed c
  delivered : ∀ c ∈ s.delivered, Admissible p Signed c

lemma Admitted.write (ha : Admitted p Signed s) {k : Key} {v : Value}
    (hv : ∀ c, v ≠ .certificate c) : Admitted p Signed (s.write k v) := by
  refine ⟨fun k' c hc => ?_, ha.delivered⟩
  by_cases hk : k' = k
  · subst hk
    rw [Core.write, lookup_insert] at hc
    exact absurd (Option.some.inj hc) (hv c)
  rw [Core.write, lookup_insert_ne hk] at hc
  exact ha.stored k' c hc

lemma Effect.admitted (hC : ∀ c, C c → Admissible p Signed c)
    (he : Effect p H C s s') (ht : Tallied p Signed s)
    (ha : Admitted p Signed s) : Admitted p Signed s' := by
  cases he with
  | write hh hne => exact ha.write fun c hc => by cases hc
  | vote hh hne hnew => exact ⟨ha.stored, delivered_castVote (s := s) _ ▸ ha.delivered⟩
  | send => exact ⟨ha.stored, delivered_send (s := s) _ _ ▸ ha.delivered⟩
  | tally hv happ => exact ⟨ha.stored, delivered_tally (s := s) _ _ ▸ ha.delivered⟩
  | @deliver d hd hpar =>
    have hadm : Admissible p Signed d := by
      rcases hd with hd | hd
      · exact hC d hd
      exact fun _ => ht.assembled d hd
    constructor
    · intro k c hc
      rw [deliver_store] at hc
      by_cases hk : k = .digest (d.digest p.crypto)
      · subst hk
        rw [lookup_insert] at hc
        cases hc
        exact hadm
      rw [lookup_insert_ne hk] at hc
      exact ha.stored k c hc
    intro c hc
    rw [delivered_deliver, List.mem_append, List.mem_singleton] at hc
    rcases hc with hc | rfl
    · exact ha.delivered c hc
    exact hadm
  | mark | sync | suspend => exact ⟨ha.stored, ha.delivered⟩

-- ==== runs

/-- A primary that handles admissible certificates only. -/
structure Guarded (p : Setup) (Signed : Signatures) (node : Node) : Prop where
  tallied : Tallied p Signed node.core
  admitted : Admitted p Signed node.core
  circulating : Circulating (fun _ => True) (Admissible p Signed) node

lemma guarded_init : Guarded p Signed Node.init := by
  refine ⟨⟨weighed_new _, ?_, ?_⟩, ⟨?_, ?_⟩, circulating_init⟩
  · intro v hv
    cases hv
  · intro c hc
    cases hc
  · intro k c hc
    cases hc
  intro c hc
  cases hc

def NoLookalike (com : Committee) : Event → Prop
  | .message (.certificate c) => ¬ Lookalike com c
  | _ => True

instance (com : Committee) : ∀ e, Decidable (NoLookalike com e)
  | .message (.certificate _) => inferInstanceAs (Decidable (¬ _))
  | .message (.header _) | .message (.vote _) | .loopHeader
  | .loopCertificate | .own _ _ _ | .batch _ _ | .commit _
  | .waitHeader _ | .releaseHeader _ | .cancelHeader _ | .retry _
  | .waitCertificate | .releaseCertificate _ => instDecidableTrue

/-- The certificates a turn is handed are admissible: checked, or in
circulation before. -/
lemma Given.admissible (hsound : SoundChecks p.crypto Signed) {s₀ : Core}
    (hnode : Guarded p Signed node) (hno : NoLookalike p.committee e)
    (hg : Given p node e s₀ H C) : ∀ c, C c → Admissible p Signed c := by
  intro c hc
  cases hg with
  | certificate hs =>
    subst hc
    exact admissible_of_verify hsound hno (ensure_bind_eq_ok.mp hs).2
  | loopCertificate hrx =>
    subst hc
    refine hnode.circulating.looped c ?_
    rw [hrx]
    exact List.mem_cons_self ..
  | _ => exact hc.elim

/-- A turn starts from the votes and certificates of its core; a new header
of our own starts the votes over. -/
lemma Given.start {s₀ : Core} (hnode : Guarded p Signed node)
    (hg : Given p node e s₀ H C) :
    Tallied p Signed s₀ ∧ Admitted p Signed s₀ := by
  cases hg with
  | own =>
    refine ⟨⟨weighed_new _, fun v hv => ?_,
      fun c hc => ?_⟩, hnode.admitted.stored, ?_⟩
    · cases hv
    · exact hnode.tallied.assembled c ((broadcast_propose _ _).mp hc)
    rw [delivered_propose]
    exact hnode.admitted.delivered
  | _ => exact ⟨hnode.tallied, hnode.admitted⟩

lemma step_guarded (hsound : SoundChecks p.crypto Signed)
    (hnode : Guarded p Signed node) (hno : NoLookalike p.committee e) :
    Guarded p Signed (node.step p e) := by
  have hcore : Tallied p Signed (node.step p e).core ∧ Admitted p Signed (node.step p e).core := by
    refine (step_core p node e).invariant (I := fun s => Tallied p Signed s ∧ Admitted p Signed s)
      ⟨hnode.tallied, hnode.admitted⟩ ?_ ?_ ?_ ?_ ?_
    · intro s₀ H C hg
      refine ⟨hg.start hnode, fun s s' he hI => ?_⟩
      exact ⟨he.tallied hsound hI.1, he.admitted (hg.admissible hsound hnode hno) hI.1 hI.2⟩
    · intro r s hI
      refine ⟨hI.1.congr (cleanup_votesAggregator r s)
        (cleanup_currentHeader r s) fun c => ?_, ?_, ?_⟩
      · rw [cleanup_log]
        exact id
      · rw [cleanup_store]
        exact hI.2.stored
      rw [cleanup_delivered]
      exact hI.2.delivered
    · intro d w s hI
      exact ⟨hI.1.congr rfl rfl fun _ => id, hI.2.write fun c hc => by cases hc⟩
    · intro ms s hI
      exact ⟨hI.1.congr rfl rfl fun _ => id, hI.2.stored, hI.2.delivered⟩
    intro cs s hI
    exact ⟨hI.1.congr rfl rfl fun _ => id, hI.2.stored, hI.2.delivered⟩
  refine ⟨hcore.1, hcore.2, step_circulating hnode.circulating ?_ ?_⟩
  · intro s₀ H C hg
    exact ⟨fun _ _ => trivial, hg.admissible hsound hnode hno⟩
  intro c hc _
  exact hcore.1.assembled c hc

lemma run_guarded (hsound : SoundChecks p.crypto Signed)
    {es : List Event} (hno : ∀ e ∈ es, NoLookalike p.committee e) :
    Guarded p Signed (Node.run p es) := by
  induction es using List.reverseRecOn with
  | nil => exact guarded_init
  | append_singleton es e ih =>
    rw [Node.run_concat]
    refine step_guarded hsound (ih fun e' he' => hno e' ?_) (hno e ?_)
    · exact List.mem_append_left _ he'
    exact List.mem_append_right _ (List.mem_singleton.mpr rfl)

/-- A certificate the core has stored or sent to consensus. -/
def Admits (s : Core) (c : Certificate) : Prop :=
  c ∈ s.delivered ∨ ∃ k, s.store.lookup k = some (.certificate c)

/-- Apart from look-alikes, `verify` accepts the genesis and certified
certificates only, and look-alikes are exactly what it accepts wrongly,
unless their header hashes to the default id. In every run in which no
look-alike is received, no certificate with a payload or parents is stored
or sent to consensus without a quorum of votes. -/
theorem admission_sound (p : Setup) (Signed : Signatures)
    (hsound : SoundChecks p.crypto Signed) :
    (∀ c, ¬ Lookalike p.committee c → c.verify p.crypto p.committee = .ok () →
      c ∈ Certificate.genesis p.committee
        ∨ Certified p.crypto p.committee Signed c)
      ∧ (∀ c, c.header.digest p.crypto ≠ 0 →
        ((c.verify p.crypto p.committee = .ok () →
          c ∈ Certificate.genesis p.committee
            ∨ Certified p.crypto p.committee Signed c)
          ↔ ¬ Lookalike p.committee c))
      ∧ ∀ es : List Event, (∀ e ∈ es, NoLookalike p.committee e) →
        ∀ c, Admits (Node.run p es).core c → Carries c →
          HasQuorum p Signed c := by
  refine ⟨fun c => verify_ok hsound, fun c hdigest => ⟨?_, ?_⟩, ?_⟩
  · intro hprop hlook
    -- a look-alike is accepted
    rcases hprop (if_pos (List.any_eq_true.mpr hlook.1)) with hgen | hcert
    · exact hlook.2 hgen
    exact hdigest (hcert.id.trans hlook.id_eq)
  · exact verify_ok hsound
  intro es hno c hc hcarries
  have hrun := (run_guarded hsound hno).admitted
  rcases hc with hc | ⟨k, hk⟩
  · exact hrun.delivered c hc hcarries
  exact hrun.stored k c hk hcarries

namespace Quad

def certified : Certificate := ⟨headerOf 0 1 (some 7) (Certificate.genesis committee), quorum⟩

lemma spell_sound : SoundChecks spell fun _ _ signature => signature = 0 :=
  ⟨fun _ _ _ hv => of_decide_eq_true hv, fun _ _ hv v hmem =>
    of_decide_eq_true (List.all_eq_true.mp hv v hmem)⟩

def mute : Crypto := { spell with verify := fun _ _ _ => false, verifyBatch := fun _ _ => false }

lemma mute_sound : SoundChecks mute fun _ _ _ => False :=
  ⟨fun _ _ _ hv => Bool.false_ne_true hv, fun _ _ hv => absurd hv Bool.false_ne_true⟩

/-- The default header of authority 0 with a batch, and no votes. -/
def forged : Certificate where
  header := { Header.default with payload := ⟨[(7, 0)], List.pairwise_singleton _ _⟩ }
  votes := []

end Quad

theorem admission_sound_certified : (Node.run Quad.setup
      [.message (.certificate Quad.certified)]).core.delivered
    = [Quad.certified]
    ∧ Carries Quad.certified
    ∧ HasQuorum Quad.setup (fun _ _ signature => signature = 0)
    Quad.certified := by
  have hrun : (Node.run setup [.message (.certificate certified)]).core.delivered
        = [certified] := by decide +kernel
  have hcarries : Carries certified := .inl (by decide)
  refine ⟨hrun, hcarries, (admission_sound setup _
    spell_sound).2.2 [.message (.certificate certified)]
    (by decide +kernel) _ (.inl ?_) hcarries⟩
  rw [hrun]
  exact List.mem_singleton.mpr rfl

/-- With no valid signature at all, the forged certificate passes `verify`,
is stored and is sent to consensus. -/
theorem admission_sound_fails :
    ∃ (p : Setup) (Signed : Signatures) (es : List Event)
    (c : Certificate), SoundChecks p.crypto Signed
    ∧ c.verify p.crypto p.committee = .ok ()
    ∧ c ∉ Certificate.genesis p.committee
    ∧ ¬ Certified p.crypto p.committee Signed c
    ∧ Admits (Node.run p es).core c ∧ Carries c ∧ ¬ HasQuorum p Signed c := by
  refine ⟨{ setup with crypto := mute }, fun _ _ _ => False,
    [.message (.certificate forged)], forged, mute_sound,
    by decide +kernel, by decide +kernel, fun hc => hc.signed,
    .inl ?_, .inl (by decide), fun hq => ?_⟩
  · exact List.mem_singleton.mpr rfl
  exact absurd hq.quorum (by decide +kernel)

end HetuEngine.Primary
