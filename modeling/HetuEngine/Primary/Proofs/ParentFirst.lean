/-
Consensus gets parents before children.

`deliver_certificate` asks the store whether the parents are there. The
store holds headers and certificates under the same kind of key, so that
answer means something only if a parent's digest is not also the id of a
header. Under that assumption everything stored under the digest of a
certificate was sent to consensus when it was stored: nothing fails between
the two, and a certificate that is suspended, or whose header fails, is not
stored.

The assumption is relative to a set `𝒞`, the certificates there are: ids of
accepted headers are no digests of `𝒞`, and accepted certificates from round
1 on, as well as our own headers, name digests of `𝒞` as parents.
-/
import HetuEngine.Lib.Along
import HetuEngine.Primary.Proofs.Steps

namespace HetuEngine.Primary

open Lib Narwhal Quad

variable {p : Setup} {𝒞 : Set Certificate} {node : Node} {e : Event}
  {H : Header → Prop} {C : Certificate → Prop} {s s' : Core}

def ParentsSent (p : Setup) (before : List Certificate) (c : Certificate) :
    Prop :=
  1 ≤ c.round → ∀ d ∈ c.header.parents, p.isGenesis d = true ∨ ∃ q ∈ before, q.digest p.crypto = d

/-- The headers an event brings in: those that pass their check, and our
own. -/
def headersIn (p : Setup) : Event → List Header
  | .message (.header h) => if h.verify p.crypto p.committee = .ok () then [h] else []
  | .message (.certificate c) => if c.verify p.crypto p.committee = .ok () then [c.header] else []
  | .own round payload parents => [Header.new p.crypto p.name round payload parents]
  | _ => []

/-- The headers of the certificates an event brings in, and of those that
may be assembled. -/
def certifiedIn (p : Setup) : Event → List Header
  | .message (.header _) => []
  | e => headersIn p e

-- ==== invariant

def Apart (p : Setup) (𝒞 : Set Certificate) (h : Header) : Prop :=
  h.parents.toList ≠ [] → ∀ c ∈ 𝒞, h.id ≠ c.digest p.crypto

/-- The header of a certificate: its id is no digest of `𝒞`, and from round
1 on the parents it names are. -/
structure Kept (p : Setup) (𝒞 : Set Certificate) (h : Header) : Prop where
  apart : Apart p 𝒞 h
  named : 1 ≤ h.round → ∀ d ∈ h.parents, ∃ c ∈ 𝒞, c.digest p.crypto = d

/-- The certificates sent so far, in order; what is stored under a digest
of `𝒞` was sent; and the headers the core works on. -/
structure Orderly (p : Setup) (𝒞 : Set Certificate) (s : Core) : Prop where
  sent : Along (ParentsSent p) [] s.delivered
  stored : ∀ c ∈ 𝒞, s.stored (.digest (c.digest p.crypto)) = true →
    ∃ q ∈ s.delivered, q.digest p.crypto = c.digest p.crypto
  current : Kept p 𝒞 s.currentHeader
  assembled : ∀ c, Output.broadcast (.certificate c) ∈ s.log → Kept p 𝒞 c.header

lemma stored_write (k k' : Key) (v : Value) :
    (s.write k v).stored k' = true ↔ k' = k ∨ s.stored k' = true := by
  unfold Core.stored Core.write
  by_cases hk : k' = k
  · subst hk
    simp [AList.lookup_insert]
  simp [AList.lookup_insert_ne hk, hk]

section

variable (ho : Orderly p 𝒞 s)

include ho

/-- A header stored under its id hides no certificate. -/
lemma Orderly.write {k : Key} {v : Value}
    (hk : ∀ c ∈ 𝒞, k ≠ .digest (c.digest p.crypto)) :
    Orderly p 𝒞 (s.write k v) := by
  refine ⟨ho.sent, fun c hc hst => ?_, ho.current, ho.assembled⟩
  rcases (stored_write _ _ _).mp hst with heq | hst
  · exact absurd heq.symm (hk c hc)
  exact ho.stored c hc hst

variable {c : Certificate}

lemma Orderly.parentsSent (hkept : Kept p 𝒞 c.header)
    (hpar : ParentsStored p s c) : ParentsSent p s.delivered c := by
  intro hround d hd
  rcases hpar d hd with hgen | hst
  · exact Or.inl hgen
  right
  obtain ⟨q, hq, rfl⟩ := hkept.named hround d hd
  exact ho.stored q hq hst

lemma Orderly.deliver (hkept : Kept p 𝒞 c.header)
    (hpar : ParentsStored p s c) : Orderly p 𝒞 (p.deliver c s) := by
  constructor
  · rw [delivered_deliver, along_concat]
    exact ⟨ho.sent, ho.parentsSent hkept hpar⟩
  · intro c' hc' hst
    rw [delivered_deliver]
    have hst' : (s.write (.digest (c.digest p.crypto))
        (.certificate c)).stored (.digest (c'.digest p.crypto)) = true := hst
    rcases (stored_write _ _ _).mp hst' with heq | hst
    · refine ⟨c, List.mem_append_right _ (List.mem_singleton.mpr rfl), ?_⟩
      exact (Key.digest.inj heq).symm
    obtain ⟨q, hq, hqd⟩ := ho.stored c' hc' hst
    exact ⟨q, List.mem_append_left _ hq, hqd⟩
  · exact ho.current
  intro c' hc'
  exact ho.assembled c' ((broadcast_deliver _ _).mp hc')

lemma Orderly.congr (hstore : s'.store = s.store)
    (hdel : s'.delivered = s.delivered)
    (hcur : s'.currentHeader = s.currentHeader)
    (hlog : ∀ c, Output.broadcast (.certificate c) ∈ s'.log →
      Output.broadcast (.certificate c) ∈ s.log) :
    Orderly p 𝒞 s' := by
  refine ⟨?_, fun c hc hst => ?_, ?_, fun c hc => ho.assembled c (hlog c hc)⟩
  · rw [hdel]
    exact ho.sent
  · rw [hdel]
    refine ho.stored c hc ?_
    unfold Core.stored at hst ⊢
    rwa [hstore] at hst
  rw [hcur]
  exact ho.current

lemma Effect.orderly (hH : ∀ h, H h → Apart p 𝒞 h)
    (hC : ∀ c, C c → Kept p 𝒞 c.header) (he : Effect p H C s s') :
    Orderly p 𝒞 s' := by
  cases he with
  | write hh hne =>
    refine ho.write fun c hc heq => ?_
    exact hH _ hh hne c hc (Key.digest.inj heq)
  | vote hh hne hnew =>
    exact ho.congr rfl (delivered_castVote _) rfl fun c => (broadcast_castVote _ _).mp
  | send => exact ho.congr rfl (delivered_send _ _) rfl fun c => (broadcast_send _ _ _).mp
  | tally hv happ =>
    refine ⟨delivered_tally (s := s) _ _ ▸ ho.sent, ?_, ho.current, fun c hc => ?_⟩
    · rw [delivered_tally]
      exact ho.stored
    rcases broadcast_tally.mp hc with hc | hsome
    · exact ho.assembled c hc
    rw [(VotesAggregator.append_spec happ).2.2 c hsome]
    exact ho.current
  | deliver hc hpar =>
    refine ho.deliver ?_ hpar
    rcases hc with hc | hc
    · exact hC _ hc
    exact ho.assembled _ hc
  | mark | sync | suspend => exact ho.congr rfl rfl rfl fun _ => id

end

-- ==== runs

/-- A primary whose circulating headers and certificates keep to `𝒞`. -/
structure Ordered (p : Setup) (𝒞 : Set Certificate) (node : Node) : Prop where
  core : Orderly p 𝒞 node.core
  circulating : Circulating (Apart p 𝒞) (fun c => Kept p 𝒞 c.header) node

/-- What an event brings in keeps to `𝒞`. -/
structure Keeps (p : Setup) (𝒞 : Set Certificate) (e : Event) : Prop where
  ids : ∀ h ∈ headersIn p e, ∀ c ∈ 𝒞, h.id ≠ c.digest p.crypto
  parents : ∀ h ∈ certifiedIn p e, 1 ≤ h.round →
    ∀ d ∈ h.parents.toList, ∃ c ∈ 𝒞, c.digest p.crypto = d

/-- The headers a turn may process when it is handed `h`. -/
lemma Handed.apart {current h x : Header} (hx : Handed p current h x)
    (hh : Apart p 𝒞 h) (hcur : Apart p 𝒞 current) : Apart p 𝒞 x := by
  rcases hx with rfl | ⟨-, rfl⟩
  · exact hh
  exact hcur

lemma Keeps.certificate (hk : Keeps p 𝒞 (.message (.certificate c)))
    (hv : c.verify p.crypto p.committee = .ok ()) : Kept p 𝒞 c.header := by
  have hin : c.header ∈ headersIn p (.message (.certificate c)) := by
    rw [headersIn, if_pos hv]
    exact List.mem_singleton.mpr rfl
  exact ⟨fun _ => hk.ids _ hin, hk.parents _ hin⟩

/-- What a turn is handed keeps to `𝒞`, and so does the state it starts
from. -/
lemma Given.keeps {s₀ : Core} (hg : Given p node e s₀ H C)
    (hnode : Ordered p 𝒞 node) (hk : Keeps p 𝒞 e) :
    Orderly p 𝒞 s₀ ∧ (∀ h, H h → Apart p 𝒞 h)
      ∧ ∀ c, C c → Kept p 𝒞 c.header := by
  have hcur := hnode.core.current.apart
  cases hg with
  | rejected => exact ⟨hnode.core, fun _ => False.elim, fun _ => False.elim⟩
  | @header h hs =>
    refine ⟨hnode.core, fun x hx => hx.apart (fun _ => ?_) hcur, fun _ => False.elim⟩
    refine hk.ids h ?_
    rw [headersIn, if_pos (ensure_bind_eq_ok.mp hs).2]
    exact List.mem_singleton.mpr rfl
  | vote hs =>
    refine ⟨hnode.core, fun x hx => ?_, fun _ => False.elim⟩
    rw [hx.2]
    exact hcur
  | certificate hs =>
    have hkept := hk.certificate (ensure_bind_eq_ok.mp hs).2
    refine ⟨hnode.core, fun x hx => hx.apart hkept.apart hcur, fun c hc => ?_⟩
    rw [hc]
    exact hkept
  | @loopHeader h hs hrx =>
    refine ⟨hnode.core, fun x hx => hx.apart ?_ hcur, fun _ => False.elim⟩
    refine hnode.circulating.headers h ?_
    rw [hrx]
    exact List.mem_cons_self ..
  | @loopCertificate c cs hrx =>
    have hkept : Kept p 𝒞 c.header := by
      refine hnode.circulating.looped c ?_
      rw [hrx]
      exact List.mem_cons_self ..
    refine ⟨hnode.core, fun x hx => hx.apart hkept.apart hcur, fun c' hc => ?_⟩
    rw [hc]
    exact hkept
  | @own round payload parents =>
    have hkept : Kept p 𝒞 (Header.new p.crypto p.name round payload parents) :=
      ⟨fun _ => hk.ids _ (List.mem_singleton.mpr rfl), hk.parents _ (List.mem_singleton.mpr rfl)⟩
    refine ⟨⟨?_, ?_, hkept, fun c hc => ?_⟩,
      fun x hx => hx.apart hkept.apart hkept.apart, fun _ => False.elim⟩
    · rw [delivered_propose]
      exact hnode.core.sent
    · rw [delivered_propose]
      exact hnode.core.stored
    exact hnode.core.assembled c ((broadcast_propose _ _).mp hc)

lemma step_ordered (hnode : Ordered p 𝒞 node) (hk : Keeps p 𝒞 e) :
    Ordered p 𝒞 (node.step p e) := by
  have hcore : Orderly p 𝒞 (node.step p e).core := by
    refine (step_core p node e).invariant hnode.core ?_ ?_ ?_ ?_ ?_
    · intro s₀ H C hg
      obtain ⟨h₀, hH, hC⟩ := hg.keeps hnode hk
      exact ⟨h₀, fun s s' he ho => he.orderly ho hH hC⟩
    · intro r s ho
      refine ho.congr (cleanup_store r s) (cleanup_delivered r s)
        (cleanup_currentHeader r s) fun c => ?_
      rw [cleanup_log]
      exact id
    · intro d w s ho
      exact ho.write fun c _ heq => by cases heq
    · intro ms s ho
      exact ho.congr rfl rfl rfl fun _ => id
    intro cs s ho
    exact ho.congr rfl rfl rfl fun _ => id
  refine ⟨hcore, step_circulating hnode.circulating ?_ hcore.assembled⟩
  intro s₀ H C hg
  exact (hg.keeps hnode hk).2

lemma run_ordered {es : List Event} (hk : ∀ e ∈ es, Keeps p 𝒞 e) :
    Ordered p 𝒞 (Node.run p es) := by
  induction es using List.reverseRecOn with
  | nil =>
    have hnil : Header.default.parents.toList = [] := rfl
    refine ⟨⟨along_nil _, ?_, ⟨?_, ?_⟩, ?_⟩, circulating_init⟩
    · intro c _ hst
      cases hst
    · exact fun hne => absurd hnil hne
    · intro _ d hd
      cases hd
    intro c hc
    cases hc
  | append_singleton es e ih =>
    rw [Node.run_concat]
    refine step_ordered (ih fun e' he' => hk e' ?_) (hk e ?_)
    · exact List.mem_append_left _ he'
    exact List.mem_append_right _ (List.mem_singleton.mpr rfl)

/-- In every run, each parent of a certificate of round 1 or later that is
sent to consensus is of the genesis or was sent before. -/
theorem parents_sent_first (p : Setup) (𝒞 : Set Certificate)
    (es : List Event) (hk : ∀ e ∈ es, Keeps p 𝒞 e) :
    ∀ before c after, (Node.run p es).core.delivered = before ++ c :: after →
      ParentsSent p before c := by
  intro before c after hsplit
  have hsent := (run_ordered hk).core.sent
  rw [hsplit] at hsent
  exact hsent.of_append

namespace Quad

def leaf (author : PublicKey) : Certificate :=
  ⟨headerOf author 1 none (Certificate.genesis committee), quorum⟩

def child : Certificate := ⟨headerOf 0 2 none [leaf 0, leaf 1, leaf 2], quorum⟩

/-- The child arrives before one of its parents and is suspended. -/
def early : List Event :=
  [.message (.certificate (leaf 0)),
   .message (.certificate (leaf 1)), .message (.certificate child),
   .waitCertificate, .message (.certificate (leaf 2)), .releaseCertificate 0, .loopCertificate]

def family : List Certificate := Certificate.genesis committee ++ [leaf 0, leaf 1, leaf 2, child]

end Quad

theorem parents_sent_first_early :
    (Node.run Quad.setup Quad.early).core.delivered
      = [Quad.leaf 0, Quad.leaf 1, Quad.leaf 2, Quad.child]
      ∧ ParentsSent Quad.setup [Quad.leaf 0, Quad.leaf 1, Quad.leaf 2]
        Quad.child := by
  have hchecked : (Node.run setup early).core.delivered = [leaf 0, leaf 1, leaf 2, child]
      ∧ (∀ e ∈ early, ∀ h ∈ headersIn setup e, ∀ c ∈ family, h.id ≠ c.digest setup.crypto)
      ∧ ∀ e ∈ early, ∀ h ∈ certifiedIn setup e, 1 ≤ h.round →
        h.parents.toList.all fun d => family.any fun c => c.digest setup.crypto = d := by
    decide +kernel
  obtain ⟨hrun, hids, hparents⟩ := hchecked
  have hkeeps : ∀ e ∈ early, Keeps setup {c | c ∈ family} e := by
    intro e he
    constructor
    · exact hids e he
    intro h hh hround d hd
    have hall := List.all_eq_true.mp (hparents e he h hh hround) d hd
    obtain ⟨c, hc, hcd⟩ := List.any_eq_true.mp hall
    exact ⟨c, hc, of_decide_eq_true hcd⟩
  exact ⟨hrun, parents_sent_first setup {c | c ∈ family} early hkeeps _ _ _ hrun⟩

end HetuEngine.Primary
