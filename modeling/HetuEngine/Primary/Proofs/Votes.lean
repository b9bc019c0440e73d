/-
One vote for each author and round.

`last_voted` remembers the authors voted for, by round, and the cleanup
forgets the rounds below `gc_round`. So `last_voted` stops a second vote
only for headers of rounds not yet forgotten. Messages of such rounds are
refused by the `sanitize` functions; but headers and certificates that come
back from the waiters, our own headers, and our current header when its
certificate is assembled late are processed without that check.

`one_vote_per_round`: in every run in which none of these headers is older
than `gc_round`, no two votes are for different headers of one author and
round. `one_vote_per_round_fails`: without the condition a header that was
suspended, completed and queued for the core before the cleanup is voted
for after it, although the other header of its author and round had the
vote.
-/
import HetuEngine.Lib.Along
import HetuEngine.Primary.Proofs.Steps

namespace HetuEngine.Primary

open Lib Narwhal Node Setup

variable {p : Setup} {node : Node} {e : Event} {H : Header → Prop}
  {C : Certificate → Prop} {s s' : Core}

/-- Votes for one author and round are for one header. -/
def OneHeader (votes : List Vote) : Prop :=
  ∀ v ∈ votes, ∀ w ∈ votes, v.origin = w.origin → v.round = w.round → v.id = w.id

-- ==== invariant

/-- The votes cast are for one header each, and those of rounds not yet
forgotten are remembered. -/
structure Ballot (s : Core) : Prop where
  one : OneHeader s.votes
  noted : ∀ v ∈ s.votes, s.gcRound ≤ v.round → v.origin ∈ HashMap.setAt s.lastVoted v.round

lemma Ballot.congr (hb : Ballot s) (hvotes : s'.votes = s.votes)
    (hlast : s'.lastVoted = s.lastVoted) (hgc : s'.gcRound = s.gcRound) :
    Ballot s' := by
  constructor
  · rw [hvotes]
    exact hb.one
  rw [hvotes, hlast, hgc]
  exact hb.noted

/-- A vote for an author who is not noted, of a round not yet forgotten. -/
lemma Ballot.castVote {v : Vote} (hb : Ballot s)
    (hfresh : s.gcRound ≤ v.round)
    (hnew : v.origin ∉ HashMap.setAt s.lastVoted v.round) :
    Ballot (s.castVote v) := by
  -- An earlier vote for the same author and round would be noted.
  have hfirst : ∀ w ∈ s.votes, ¬ (w.origin = v.origin ∧ w.round = v.round) := by
    intro w hw hsame
    apply hnew
    rw [← hsame.1, ← hsame.2]
    exact hb.noted w hw (hsame.2 ▸ hfresh)
  constructor
  · intro w hw w' hw' horigin hround
    rw [votes_castVote, List.mem_append, List.mem_singleton] at hw hw'
    rcases hw with hw | rfl
    · rcases hw' with hw' | rfl
      · exact hb.one w hw w' hw' horigin hround
      exact absurd ⟨horigin, hround⟩ (hfirst w hw)
    rcases hw' with hw' | rfl
    · exact absurd ⟨horigin.symm, hround.symm⟩ (hfirst w' hw')
    rfl
  intro w hw hle
  rw [votes_castVote, List.mem_append, List.mem_singleton] at hw
  refine HashMap.mem_setAt_addTo.mpr ?_
  rcases hw with hw | rfl
  · exact .inr (hb.noted w hw hle)
  exact .inl ⟨rfl, rfl⟩

/-- Effects on headers of rounds not yet forgotten. -/
lemma Effect.ballot (he : Effect p H C s s')
    (hH : ∀ h, H h → s.gcRound ≤ h.round) (hb : Ballot s) : Ballot s' := by
  cases he with
  | vote hh hne hnew => exact hb.castVote (hH _ hh) hnew
  | send => exact hb.congr (votes_send _ _) rfl rfl
  | tally hv happ => exact hb.congr (votes_tally _ _) rfl rfl
  | deliver hc hpar => exact hb.congr (votes_deliver _) rfl rfl
  | mark | sync | write | suspend => exact hb.congr rfl rfl rfl

lemma Effects.ballot (he : Effects p H C s s')
    (hH : ∀ h, H h → s.gcRound ≤ h.round) (hb : Ballot s) : Ballot s' := by
  induction he with
  | refl => exact hb
  | tail he hlast ih => exact hlast.ballot (by rwa [(Effects.grows he).gcRound]) ih

/-- The cleanup forgets only rounds below the new `gc_round`. -/
lemma Ballot.cleanup {r : Nat} (hb : Ballot s)
    (hr : s.gcRound ≤ r - p.gcDepth) : Ballot (p.cleanup r s) := by
  unfold Setup.cleanup
  split
  · refine ⟨hb.one, fun v hv hle => ?_⟩
    rw [HashMap.mem_setAt_retainKeys, decide_eq_true_iff]
    exact ⟨hle, hb.noted v hv (le_trans hr hle)⟩
  exact hb

-- ==== runs

/-- The headers a turn may process whose round no check has compared with
`gc_round`. -/
def unchecked (p : Setup) (node : Node) : Event → List Header
  | .message (.header h) => current h
  | .message (.certificate c) => current c.header
  | .message (.vote v) => if resumes p node.core v then [node.core.currentHeader] else []
  | .loopHeader => node.rxHeaderWaiter.head?.toList.flatMap fun h => h :: current h
  | .loopCertificate =>
    node.rxCertificateWaiter.head?.toList.flatMap fun c => c.header :: current c.header
  | .own round payload parents => [Header.new p.crypto p.name round payload parents]
  | _ => []
where
  /-- Processing a header of our own may complete the certificate of our
  current header. -/
  current (h : Header) : List Header := if h.author = p.name then [node.core.currentHeader] else []

/-- An event that hands the core no header older than `gc_round`, except
one that will be checked. -/
def Fresh (p : Setup) (node : Node) (e : Event) : Prop :=
  ∀ h ∈ unchecked p node e, node.core.gcRound ≤ h.round

instance (p : Setup) (node : Node) (e : Event) : Decidable (Fresh p node e) :=
  inferInstanceAs (Decidable (∀ h ∈ unchecked p node e, node.core.gcRound ≤ h.round))

/-- What a turn is handed is checked, or fresh by assumption. -/
lemma Given.round_le {s₀ : Core} (hg : Given p node e s₀ H C)
    (hf : Fresh p node e) : ∀ h, H h → s₀.gcRound ≤ h.round := by
  have hcur : ∀ {h x : Header}, h.author = p.name ∧
      x = node.core.currentHeader → x ∈ unchecked.current p node h := by
    intro h x hx
    unfold unchecked.current
    rw [if_pos hx.1, hx.2]
    exact List.mem_singleton.mpr rfl
  intro x hx
  cases hg with
  | rejected => exact hx.elim
  | header hs =>
    rcases hx with rfl | hx
    · unfold sanitizeHeader at hs
      exact of_decide_eq_true (ensure_bind_eq_ok.mp hs).1
    exact hf x (hcur hx)
  | vote hs =>
    refine hf x ?_
    simp [unchecked, hx]
  | certificate hs =>
    rcases hx with rfl | hx
    · unfold sanitizeCertificate at hs
      exact of_decide_eq_true (ensure_bind_eq_ok.mp hs).1
    exact hf x (hcur hx)
  | loopHeader hrx | loopCertificate hrx =>
    refine hf x ?_
    simp only [unchecked,
      hrx, List.head?_cons, Option.toList_some, List.flatMap_cons,
        List.flatMap_nil, List.append_nil, List.mem_cons]
    exact hx.imp_right hcur
  | own =>
    refine hf x ?_
    simp only [unchecked, List.mem_singleton]
    rcases hx with hx | hx
    · exact hx
    exact hx.2

/-- A turn starts from the votes of the core it is a turn of. -/
lemma Given.ballot {s₀ : Core} (hg : Given p node e s₀ H C)
    (hb : Ballot node.core) : Ballot s₀ ∧ s₀.gcRound = node.core.gcRound := by
  cases hg with
  | own => exact ⟨hb.congr (votes_propose _) rfl rfl, rfl⟩
  | _ => exact ⟨hb, rfl⟩

def Behind (p : Setup) (node : Node) : Prop := node.core.gcRound ≤ node.consensusRound - p.gcDepth

lemma CoreStep.ballot (hstep : CoreStep p node e s)
    (hb : Ballot node.core) (hbehind : Behind p node) (hf : Fresh p node e) :
    Ballot s ∧ s.gcRound ≤ node.consensusRound - p.gcDepth := by
  cases hstep with
  | panic hg he =>
    obtain ⟨hb₀, hgc⟩ := hg.ballot hb
    refine ⟨Effects.ballot he (hg.round_le hf) hb₀, ?_⟩
    rw [(Effects.grows he).gcRound, hgc]
    exact hbehind
  | @turn _ _ _ s₁ hg he =>
    obtain ⟨hb₀, hgc⟩ := hg.ballot hb
    have hle : s₁.gcRound ≤ node.consensusRound - p.gcDepth := by
      rw [(Effects.grows he).gcRound, hgc]
      exact hbehind
    refine ⟨(Effects.ballot he (hg.round_le hf) hb₀).cleanup hle, ?_⟩
    unfold cleanup
    split
    · exact le_refl _
    exact hle
  | idle | batch | takeSync | takeCertificate => exact ⟨hb.congr rfl rfl rfl, hbehind⟩

lemma run_ballot (p : Setup) {es : List Event}
    (hf : Along (fun before e => Fresh p (run p before) e) [] es) :
    Ballot (run p es).core ∧ Behind p (run p es) := by
  induction es using List.reverseRecOn with
  | nil =>
    refine ⟨⟨fun v hv => ?_, fun v hv => ?_⟩, Nat.zero_le _⟩
    · cases hv
    cases hv
  | append_singleton es e ih =>
    rw [along_concat] at hf
    obtain ⟨hb, hbehind⟩ := ih hf.1
    rw [run_concat]
    obtain ⟨hb', hle⟩ := (step_core p (run p es) e).ballot hb hbehind hf.2
    refine ⟨hb', le_trans hle ?_⟩
    exact Nat.sub_le_sub_right (step_spec _ _ _).consensusRound _

/-- In every run in which no header that enters `process_header` without a
check is older than `gc_round`, the votes created for one author and round
are for one header. -/
theorem one_vote_per_round (p : Setup) (es : List Event)
    (hf : Along (fun before e => Fresh p (Node.run p before) e) [] es) :
    OneHeader (Node.run p es).core.votes :=
  (run_ballot p hf).1.one

namespace Quad

/-- Two headers of authority 1 in round 1; the second has a batch. -/
def first : Header := headerOf 1 1 none (Certificate.genesis committee)

def second : Header := headerOf 1 1 (some 7) (Certificate.genesis committee)

/-- The second header arrives first and waits for its batch; the first one
is voted for. The batch arrives, and the second header goes back to the
core. -/
def rivals : List Event :=
  [.message (.header second), .waitHeader 0, .message (.header first), .batch 7 0, .releaseHeader 0]

def committed : Certificate := ⟨headerOf 0 52 none [], quorum⟩

/-- Consensus moves on before the core takes the second header: the turn
for another message forgets round 1. -/
def forgotten : List Event := rivals ++ [.commit committed, .message (.header first), .loopHeader]

end Quad

theorem one_vote_per_round_rivals :
    (Node.run Quad.setup (Quad.rivals ++ [.loopHeader])).core.votes.map
      Vote.id = [Quad.first.id]
      ∧ OneHeader
        (Node.run Quad.setup (Quad.rivals ++ [.loopHeader])).core.votes :=
  ⟨by decide +kernel, one_vote_per_round _ _ (by decide +kernel)⟩

/-- Without the condition both headers of authority 1 in round 1 get a
vote. -/
theorem one_vote_per_round_fails : ¬ ∀ (p : Setup) (es : List Event),
    OneHeader (Node.run p es).core.votes := by
  intro h
  have hvotes : ∃ v ∈ (run Quad.setup Quad.forgotten).core.votes,
      ∃ w ∈ (run Quad.setup Quad.forgotten).core.votes,
        v.origin = w.origin ∧ v.round = w.round ∧ v.id ≠ w.id := by
    decide +kernel
  obtain ⟨v, hv, w, hw, horigin, hround, hid⟩ := hvotes
  exact hid (h _ _ v hv w hw horigin hround)

end HetuEngine.Primary
