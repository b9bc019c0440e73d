/-
What the core does, taken apart once: every function of the core performs
effects from a short list, each under a condition on the state in which it
is performed.

The conditions are the checks the code makes at that point: a vote is cast
only for an author not voted for in that round, a certificate is delivered
only with all its parents in the store. They also say where the header or
certificate comes from. A header is one of those the turn may process
(`H`); a certificate was handed to the core (`C`) or assembled by it, in
which case the log has it.

The same pass shows that the bound on nested votes is never reached
(`processVote_does`). A second nested vote can only come from processing our
current header inside a certificate of it; by then that header is marked as
being processed, so the certificate that vote may complete processes no
header.
-/
import HetuEngine.Primary.System

namespace HetuEngine.Primary

open Lib Lib.Fallible Narwhal Does Setup Primary.Core Output HashMap
open Relation (ReflTransGen)

def WaiterMessage.header : WaiterMessage → Header
  | .syncBatches _ header => header
  | .syncParents _ header => header

/-- A certificate that may be processed: handed to the core, or assembled
by it. -/
def Offered (C : Certificate → Prop) (s : Core) (c : Certificate) : Prop :=
  C c ∨ Output.broadcast (.certificate c) ∈ s.log

/-- A vote that may be counted: our own, or one that passed the checks. -/
def Accepted (p : Setup) (s : Core) (v : Vote) : Prop :=
  v.author = p.name ∨ p.sanitizeVote s v = .ok ()

def ParentsStored (p : Setup) (s : Core) (c : Certificate) : Prop :=
  ∀ d ∈ c.header.parents, p.isGenesis d = true ∨ s.stored (.digest d) = true

/-- The effects of the core in one turn. -/
inductive Effect (p : Setup) (H : Header → Prop) (C : Certificate → Prop) :
    Core → Core → Prop where
  | mark {s h} : H h → Effect p H C s (s.mark h)
  | sync {s m} : H m.header → Effect p H C s (s.sync m)
  | write {s h} : H h → h.parents.toList ≠ [] → Effect p H C s (s.write (.digest h.id) (.header h))
  | vote {s h} : H h → h.parents.toList ≠ [] → h.author
      ∉ HashMap.setAt s.lastVoted h.round → Effect p H C s (s.castVote (Vote.new p.crypto h p.name))
  | send {s name v} : Effect p H C s (s.emit (.send name (.vote v)))
  | tally {s v o agg} : Accepted p s v → s.votesAggregator.append
      v p.committee s.currentHeader = .ok (o, agg) → Effect p H C s (s.tally agg o)
  | suspend {s c} : Offered C s c → Effect p H C s (s.suspend c)
  | deliver {s c} : Offered C s c → ParentsStored p s c → Effect p H C s (p.deliver c s)

abbrev Effects (p : Setup) (H : Header → Prop) (C : Certificate → Prop) :
    Core → Core → Prop := ReflTransGen (Effect p H C)

-- ==== frame

section Frame

variable {p : Setup} {H : Header → Prop} {C : Certificate → Prop} {s s' : Core}

@[simp] lemma deliver_store (c : Certificate) :
    (p.deliver c s).store
      = s.store.insert (.digest (c.digest p.crypto)) (.certificate c) := rfl

/-- Delivering a certificate logs it last, after what the proposer gets. -/
lemma deliver_log (c : Certificate) :
    ∃ outs, (p.deliver c s).log = s.log ++ outs ++ [.consensus c]
    ∧ ∀ o ∈ outs, ∃ ds r, o = parents ds r := by
  refine ⟨_, rfl, fun o ho => ?_⟩
  obtain ⟨ds, -, rfl⟩ := List.mem_map.mp ho
  exact ⟨_, _, rfl⟩

-- The votes created and the certificates delivered, effect by effect.

@[simp] lemma votes_castVote (v : Vote) :
    (s.castVote v).votes = s.votes ++ [v] := by
  unfold votes castVote
  rw [List.filterMap_append]
  rfl

@[simp] lemma votes_send (name : PublicKey) (m : Message) :
    (s.emit (.send name m)).votes = s.votes := by
  unfold votes emit
  rw [List.filterMap_append]
  exact List.append_nil _

@[simp] lemma votes_tally (agg : VotesAggregator)
    (o : Option Certificate) : (s.tally agg o).votes = s.votes := by
  unfold votes tally
  rw [List.filterMap_append]
  cases o <;> exact List.append_nil _

@[simp] lemma votes_propose (h : Header) : (propose h s).votes = s.votes := by
  unfold votes propose
  rw [List.filterMap_append]
  exact List.append_nil _

@[simp] lemma votes_deliver (c : Certificate) :
    (p.deliver c s).votes = s.votes := by
  obtain ⟨outs, hlog, houts⟩ := deliver_log (p := p) (s := s) c
  unfold votes
  rw [hlog, List.filterMap_append, List.filterMap_append]
  have hnil : outs.filterMap asVote = [] := by
    rw [List.filterMap_eq_nil_iff]
    intro o ho
    obtain ⟨ds, r, rfl⟩ := houts o ho
    rfl
  rw [hnil, List.append_nil]
  exact List.append_nil _

@[simp] lemma delivered_deliver (c : Certificate) :
    (p.deliver c s).delivered = s.delivered ++ [c] := by
  obtain ⟨outs, hlog, houts⟩ := deliver_log (p := p) (s := s) c
  unfold delivered
  rw [hlog, List.filterMap_append, List.filterMap_append]
  have hnil : outs.filterMap asDelivered = [] := by
    rw [List.filterMap_eq_nil_iff]
    intro o ho
    obtain ⟨ds, r, rfl⟩ := houts o ho
    rfl
  rw [hnil, List.append_nil]
  rfl

@[simp] lemma delivered_castVote (v : Vote) :
    (s.castVote v).delivered = s.delivered := by
  unfold delivered castVote
  rw [List.filterMap_append]
  exact List.append_nil _

@[simp] lemma delivered_send (name : PublicKey) (m : Message) :
    (s.emit (.send name m)).delivered = s.delivered := by
  unfold delivered emit
  rw [List.filterMap_append]
  exact List.append_nil _

@[simp] lemma delivered_tally (agg : VotesAggregator)
    (o : Option Certificate) : (s.tally agg o).delivered = s.delivered := by
  unfold delivered tally
  rw [List.filterMap_append]
  cases o <;> exact List.append_nil _

@[simp] lemma delivered_propose (h : Header) :
    (propose h s).delivered = s.delivered := by
  unfold delivered propose
  rw [List.filterMap_append]
  exact List.append_nil _

-- Messages are broadcast when a header is proposed and when votes make a
-- certificate, not otherwise.

@[simp] lemma broadcast_castVote (m : Message) (v : Vote) :
    broadcast m ∈ (s.castVote v).log ↔ broadcast m ∈ s.log := by
  simp [castVote]

@[simp] lemma broadcast_send (m m' : Message) (name : PublicKey) :
    broadcast m ∈ (s.emit (.send name m')).log ↔ broadcast m ∈ s.log := by
  simp [emit]

@[simp] lemma broadcast_deliver (m : Message) (c : Certificate) :
    broadcast m ∈ (p.deliver c s).log ↔ broadcast m ∈ s.log := by
  obtain ⟨outs, hlog, houts⟩ := deliver_log (p := p) (s := s) c
  have hnot : broadcast m ∉ outs := by
    intro hmem
    obtain ⟨ds, r, heq⟩ := houts _ hmem
    cases heq
  rw [hlog]
  simp [hnot]

@[simp] lemma broadcast_propose (c : Certificate) (h : Header) :
    broadcast (.certificate c) ∈ (propose h s).log
      ↔ broadcast (.certificate c) ∈ s.log := by
  simp [propose]

lemma broadcast_tally {c : Certificate} {agg : VotesAggregator}
    {o : Option Certificate} :
    broadcast (.certificate c) ∈ (s.tally agg o).log
      ↔ broadcast (.certificate c) ∈ s.log ∨ o = some c := by
  cases o with
  | none => simp [tally]
  | some d => simp [tally, eq_comm]

/-- What an effect leaves alone: the log only grows, headers being
processed stay so, and the current header and the garbage collected round
do not change. -/
structure Grows (s s' : Core) : Prop where
  log : s.log.IsPrefix s'.log
  processing : ∀ k, HashMap.setAt s.processing k ⊆ HashMap.setAt s'.processing k
  currentHeader : s'.currentHeader = s.currentHeader
  gcRound : s'.gcRound = s.gcRound

lemma Grows.refl (s : Core) : Grows s s :=
  ⟨List.prefix_rfl, fun _ => Finset.Subset.refl _, rfl, rfl⟩

lemma Grows.trans {s₁ s₂ s₃ : Core} (h : Grows s₁ s₂) (h' : Grows s₂ s₃) :
    Grows s₁ s₃ where
  log := h.log.trans h'.log
  processing k := (h.processing k).trans (h'.processing k)
  currentHeader := h'.currentHeader.trans h.currentHeader
  gcRound := h'.gcRound.trans h.gcRound

lemma Effect.grows (h : Effect p H C s s') : Grows s s' := by
  have keep : ∀ k, setAt s.processing k
      ⊆ setAt s.processing k := fun k => Finset.Subset.refl _
  cases h with
  | mark hh =>
    refine ⟨List.prefix_rfl, fun k d hd => ?_, rfl, rfl⟩
    exact mem_setAt_addTo.mpr (.inr hd)
  | sync hm | write hh hne | suspend hc => exact ⟨List.prefix_rfl, keep, rfl, rfl⟩
  | vote hh hne hnew | send
  | tally hv happ => exact ⟨List.prefix_append _ _, keep, rfl, rfl⟩
  | @deliver c hc hpar =>
    obtain ⟨outs, hlog, -⟩ := deliver_log (p := p) (s := s) c
    refine ⟨?_, keep, rfl, rfl⟩
    rw [hlog, List.append_assoc]
    exact List.prefix_append _ _

lemma Effects.grows (h : Effects p H C s s') : Grows s s' := by
  induction h with
  | refl => exact Grows.refl _
  | tail _ he ih => exact ih.trans he.grows

lemma Grows.offered {c : Certificate} (hg : Grows s s')
    (hc : Offered C s c) : Offered C s' c := by
  rcases hc with hc | hc
  · exact .inl hc
  exact .inr (hg.log.subset hc)

lemma Grows.isProcessing {h : Header} (hg : Grows s s')
    (hh : s.isProcessing h = true) : s'.isProcessing h = true := by
  unfold Core.isProcessing at hh ⊢
  rw [decide_eq_true_iff] at hh ⊢
  exact hg.processing _ hh

lemma isProcessing_mark (h : Header) : (s.mark h).isProcessing h = true := by
  unfold isProcessing
  rw [decide_eq_true_iff]
  exact mem_setAt_addTo.mpr (.inl ⟨rfl, rfl⟩)

end Frame

-- ==== functions

section Functions

variable {p : Setup} {H : Header → Prop} {C : Certificate → Prop} {s : Core}

/-- Every failure but running out of nested votes. -/
def Bounded (e : Failure) : Prop := e ≠ .panic .nesting

/-- What a function of the core does, with nothing said of its result. -/
abbrev Acts (p : Setup) (H : Header → Prop) (C : Certificate → Prop)
    {α : Type} (m : Action α) (s : Core) : Prop :=
  Does (Effect p H C) Bounded m s fun _ _ => True

lemma bounded_error (e : DagError) : Bounded (.error e) := by
  intro h
  cases h

lemma expect_acts {α : Type} {q : Panic} {m : Action α} (hq : q ≠ .nesting)
    (h : Acts p H C m s) : Acts p H C (expect q m) s := by
  refine mapError h fun e he => ?_
  cases e with
  | error e =>
    intro heq
    cases heq
    exact hq rfl
  | panic q => exact he

variable {h : Header} {c : Certificate} {vote : Vote → Action Unit}

/-- Parents are found only where parents are named. -/
lemma getParents_does (hh : H h) :
    Does (Effect p H C) Bounded (p.getParents h) s fun parents _ => parents ≠
      [] → h.parents.toList ≠ [] := by
  apply get_bind
  apply lift_bind bounded_error
  intro found hfound
  obtain ⟨missing, parents⟩ := found
  simp only
  split
  · apply of_pure
    intro hne hnil
    rw [hnil] at hfound
    cases hfound
    exact hne rfl
  refine modify_bind (.sync hh) (of_pure ?_)
  intro hne
  exact absurd rfl hne

lemma missingPayload_acts (hh : H h) : Acts p H C (p.missingPayload h) s := by
  unfold missingPayload
  split
  · exact of_pure trivial
  apply get_bind
  simp only
  split
  · exact of_pure trivial
  exact modify_bind (.sync hh) (of_pure trivial)

lemma deliverCertificate_does (hc : Offered C s c) :
    Does (Effect p H C) Bounded (p.deliverCertificate c) s fun b s' => b = true
      → s' = s ∧ ParentsStored p s c := by
  apply get_bind
  split
  next hall =>
    apply of_pure
    intro _
    refine ⟨rfl, fun d hd => ?_⟩
    have := List.all_eq_true.mp hall d hd
    rwa [Bool.or_eq_true] at this
  next =>
  refine modify_bind (.suspend hc) (of_pure ?_)
  intro h
  cases h

/-- Processing a header, when what a vote of our own leads to is known. -/
lemma processHeaderWith_acts (hh : H h)
    (hvote : h.author = p.name →
      ∀ s', Effects p H C (s.mark h) s' →
        Acts p H C (vote (Vote.new p.crypto h p.name)) s') :
    Acts p H C (p.processHeaderWith vote h) s := by
  apply modify_bind (.mark hh)
  refine bind (getParents_does hh) fun parents s₂ he₂ hpar => ?_
  split
  · exact of_pure trivial
  next hsome =>
  have hne := hpar hsome
  apply lift_bind bounded_error
  intro stake _
  apply lift_bind bounded_error
  intro _ _
  refine bind (missingPayload_acts hh) fun missing s₃ he₃ _ => ?_
  split
  · exact of_pure trivial
  apply modify_bind (.write hh hne)
  apply get_bind
  split
  · exact of_pure trivial
  next hnew =>
  have he₄ := (he₂.trans he₃).tail (Effect.write hh hne)
  have hcast := Effect.vote (p := p) (C := C) hh hne hnew
  apply modify_bind hcast
  split
  next hown => exact expect_acts (by decide) (hvote hown _ (he₄.tail hcast))
  · apply lift_bind (fun _ h => by cases h)
    intro _ _
    exact of_modify .send trivial

lemma processEmbedded_acts (hh : s.isProcessing h = false → H h)
    (hvote : s.isProcessing h = false → h.author = p.name →
      ∀ s', Effects p H C (s.mark h) s' →
        Acts p H C (vote (Vote.new p.crypto h p.name)) s') :
    Acts p H C (p.processEmbedded vote h) s := by
  apply get_bind
  split
  · exact of_pure trivial
  next hnot =>
  rw [Bool.not_eq_true] at hnot
  exact processHeaderWith_acts (hh hnot) (hvote hnot)

lemma processCertificateWith_acts (hc : Offered C s c)
    (hh : s.isProcessing c.header = false → H c.header)
    (hvote : s.isProcessing c.header = false → c.header.author = p.name →
      ∀ s', Effects p H C (s.mark c.header) s' →
        Acts p H C (vote (Vote.new p.crypto c.header p.name)) s') :
    Acts p H C (p.processCertificateWith vote c) s := by
  refine bind (processEmbedded_acts hh hvote) fun _ s₁ he₁ _ => ?_
  have hc₁ := (Effects.grows he₁).offered hc
  refine bind (deliverCertificate_does hc₁) fun b s₂ _ hb => ?_
  split
  next hbt =>
    obtain ⟨rfl, hpar⟩ := hb hbt
    exact of_modify (.deliver hc₁ hpar) trivial
  next => exact of_pure trivial

/-- Whether a vote completes a certificate of our current header while that
header is not being processed: the header is then processed again. -/
def resumes (p : Setup) (s : Core) (v : Vote) : Bool :=
  !s.isProcessing s.currentHeader
    && match s.votesAggregator.append v p.committee s.currentHeader with
      | .ok (some _, _) => true
      | _ => false

lemma not_resumes_of_isProcessing {v : Vote}
    (h : s.isProcessing s.currentHeader = true) : resumes p s v = false := by
  unfold resumes
  rw [h]
  rfl

/-- Processing a vote performs effects, and the nesting is deep enough: two
levels always, one if the current header is being processed. -/
lemma processVote_acts (n : Nat) {v : Vote} (hv : Accepted p s v)
    (hH : resumes p s v = true → H s.currentHeader)
    (hn : 1 < n ∨ n = 1 ∧ s.isProcessing s.currentHeader = true) :
    Acts p H C (p.processVote n v) s := by
  induction n generalizing s v with
  | zero => omega
  | succ n ih =>
    apply get_bind
    apply lift_bind bounded_error
    intro next happ
    obtain ⟨o, agg⟩ := next
    have htally := Effect.tally (H := H) (C := C) hv happ
    apply modify_bind htally
    cases o with
    | none => exact of_pure trivial
    | some c =>
      have hcert : c.header = s.currentHeader := by
        rw [(VotesAggregator.append_spec happ).2.2 c rfl]
      have hlog : broadcast (.certificate c) ∈ (s.tally agg (some c)).log :=
        List.mem_append_right _ (List.mem_singleton.mpr rfl)
      have hcur : s.isProcessing c.header = false → H c.header := by
        rw [hcert]
        refine fun hnot => hH ?_
        unfold resumes
        rw [happ, hnot]
        rfl
      refine expect_acts (by decide) (processCertificateWith_acts (.inr hlog) hcur ?_)
      -- Our vote for the current header: it is marked by now, so the
      -- certificate that vote may complete does not process it.
      intro hnot _ s' hs'
      have hmark := (Effects.grows hs').isProcessing (isProcessing_mark c.header)
      have hsame : s'.currentHeader = c.header := (Effects.grows hs').currentHeader.trans hcert.symm
      rw [← hsame] at hmark
      refine ih (.inl rfl) ?_ ?_
      · rw [not_resumes_of_isProcessing hmark]
        intro hres
        cases hres
      rcases hn with hn | ⟨-, hproc⟩
      · by_cases h1 : n = 1
        · exact .inr ⟨h1, hmark⟩
        exact .inl (by omega)
      rw [← hcert] at hproc
      exact absurd hproc (Bool.eq_false_iff.mp hnot)

/-- The headers a turn may process when it is handed `h` while `current` is
our current header: `h`, and if `h` is our own, the current header, whose
certificate our vote may complete. -/
def Handed (p : Setup) (current h : Header) (x : Header) : Prop :=
  x = h ∨ h.author = p.name ∧ x = current

/-- Our vote for a header handed to the core can always be processed. -/
lemma ownVote_acts {s' : Core} (hown : h.author = p.name)
    (hs : Effects p (Handed p s.currentHeader h) C (s.mark h) s') :
    Acts p (Handed p s.currentHeader h) C
    (p.processVote nesting (Vote.new p.crypto h p.name)) s' := by
  refine processVote_acts nesting (.inl rfl) (fun _ => ?_) (.inl (by decide))
  exact .inr ⟨hown, (Effects.grows hs).currentHeader⟩

lemma processHeader_acts :
    Acts p (Handed p s.currentHeader h) C (p.processHeader h) s :=
  processHeaderWith_acts (.inl rfl) fun hown _ => ownVote_acts hown

lemma processCertificate_acts :
    Acts p (Handed p s.currentHeader c.header) (· = c) (p.processCertificate c)
      s :=
  processCertificateWith_acts (.inl rfl) (fun _ => .inl rfl) fun _ hown _ => ownVote_acts hown

end Functions

end HetuEngine.Primary
