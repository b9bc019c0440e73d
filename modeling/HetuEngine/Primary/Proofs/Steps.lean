/-
One event of a primary, seen from the core and from the channels.

`step_spec` says what an event does to the core: nothing, a turn made of
effects (`Effects`) and mostly followed by the cleanup, or a small change by
another task. `Given` says what the turn was handed and which check it has
passed: messages are checked, headers and certificates from the waiters
and our own headers are not.

`step_circulating`: what is on the channels and in the pools of the waiters
came from the core, so a property of everything handed to the core and of
everything it assembles holds of everything that circulates.
-/
import HetuEngine.Primary.Proofs.Effects

namespace HetuEngine.Primary

open Lib Lib.Fallible Narwhal Does Setup Node
open Relation (ReflTransGen)

variable {p : Setup} {node : Node} {e : Event}

-- ==== the core's turns

/-- What a turn is handed: the state it starts its effects from, the
headers and the certificates. -/
inductive Given (p : Setup) (node : Node) :
    Event → Core → (Header → Prop) → (Certificate → Prop) → Prop where
  | rejected {m} : Given p node (.message m) node.core (fun _ => False) (fun _ => False)
  | header {h} : p.sanitizeHeader node.core h = .ok () → Given p node
      (.message (.header h)) node.core (Handed p node.core.currentHeader h) (fun _ => False)
  | vote {v} : p.sanitizeVote node.core v = .ok () → Given p node (.message (.vote v)) node.core
      (fun x => resumes p node.core v = true ∧ x = node.core.currentHeader) (fun _ => False)
  | certificate {c} : p.sanitizeCertificate node.core c = .ok () → Given p node
      (.message (.certificate c)) node.core (Handed p node.core.currentHeader c.header) (· = c)
  | loopHeader {h hs} : node.rxHeaderWaiter = h :: hs →
      Given p node .loopHeader node.core (Handed p node.core.currentHeader h) (fun _ => False)
  | loopCertificate {c cs} : node.rxCertificateWaiter = c :: cs →
      Given p node .loopCertificate node.core (Handed p node.core.currentHeader c.header) (· = c)
  | own {round payload parents} : Given p node (.own round payload parents)
        (Setup.propose (Header.new p.crypto p.name round payload parents) node.core)
        (Handed p (Header.new p.crypto p.name round payload parents)
        (Header.new p.crypto p.name round payload parents)) (fun _ => False)

inductive CoreStep (p : Setup) (node : Node) (e : Event) : Core → Prop where
  | idle : CoreStep p node e node.core
  | panic {H C s₀ s} : Given p node e s₀ H C → Effects p H C s₀ s → CoreStep p node e s
  | turn {H C s₀ s} : Given p node e s₀ H C → Effects p H C s₀ s →
      CoreStep p node e (p.cleanup node.consensusRound s)
  | batch (digest worker) : CoreStep p node e (node.core.write (.payload digest worker) .marker)
  | takeSync {m ms} : node.core.txHeaderWaiter = m :: ms →
      CoreStep p node e { node.core with txHeaderWaiter := ms }
  | takeCertificate {c cs} : node.core.txCertificateWaiter = c :: cs →
      CoreStep p node e { node.core with txCertificateWaiter := cs }

variable {C : Certificate → Prop} {H : Header → Prop} {m : Action Unit} {h : Header}

/-- A turn that was not prevented by an earlier panic: effects, then the
cleanup unless it panicked, and never for lack of nesting. -/
lemma turn_spec (hrun : node.aborted = none) (hm : Acts p H C m node.core) :
    ∃ s, Effects p H C node.core s ∧ (p.turn m node = { node with
            core := p.cleanup node.consensusRound s }
        ∨ ∃ q, q ≠ .nesting ∧ p.turn m node = { node with core := s, aborted := some q }) := by
  unfold turn
  rw [hrun]
  unfold Acts Does at hm
  revert hm
  cases m node.core with
  | ok a s => exact fun hm => ⟨s, hm.1, .inl rfl⟩
  | error e s =>
    intro hm
    cases e with
    | error e => exact ⟨s, hm.1, .inl rfl⟩
    | panic q =>
      refine ⟨s, hm.1, .inr ⟨q, ?_, rfl⟩⟩
      rintro rfl
      exact hm.2 rfl

lemma turn_aborted {q : Panic} (h : node.aborted = some q) :
    p.turn m node = node := by
  unfold turn
  rw [h]
  rfl

lemma handle_acts (node : Node) (m : Message) :
    ∃ H C, Given p node (.message m) node.core H C
      ∧ Acts p H C (p.handle m) node.core := by
  -- A message that fails its check is handed to nothing.
  have reject : ∀ {x : Except DagError Unit} {g : Unit → Action Unit} {e},
      x = .error e → Acts p (fun _ => False) (fun _ => False) (lift .error x >>= g) node.core := by
    intro x g e hx
    subst hx
    exact lift_bind bounded_error fun _ h => by cases h
  cases m with
  | header h =>
    cases hs : p.sanitizeHeader node.core h with
    | error e => exact ⟨_, _, .rejected, reject hs⟩
    | ok u =>
      refine ⟨_, _, .header hs, ?_⟩
      exact get_bind (lift_bind bounded_error fun _ _ => processHeader_acts)
  | vote v =>
    cases hs : p.sanitizeVote node.core v with
    | error e => exact ⟨_, _, .rejected, reject hs⟩
    | ok u =>
      refine ⟨_, _, .vote hs, ?_⟩
      exact get_bind (lift_bind bounded_error fun _ _ =>
        processVote_acts nesting (.inr hs) (fun hres => ⟨hres, rfl⟩) (.inl (by decide)))
  | certificate c =>
    cases hs : p.sanitizeCertificate node.core c with
    | error e => exact ⟨_, _, .rejected, reject hs⟩
    | ok u =>
      refine ⟨_, _, .certificate hs, ?_⟩
      exact get_bind (lift_bind bounded_error fun _ _ => processCertificate_acts)

/-- What an event does to the core and to what the core depends on. -/
structure StepSpec (p : Setup) (node : Node) (e : Event) (node' : Node) :
    Prop where
  core : CoreStep p node e node'.core
  consensusRound : node.consensusRound ≤ node'.consensusRound
  aborted : node'.aborted = node.aborted ∨ ∃ q, q ≠ .nesting ∧ node'.aborted = some q

/-- A turn of `node₀`, which is `node` but for the message taken and the
header proposed. -/
lemma turn_step {node₀ : Node}
    (hround : node₀.consensusRound = node.consensusRound)
    (haborted : node₀.aborted = node.aborted)
    (hidle : ∀ q, node₀.aborted = some q → node₀.core = node.core)
    (hg : Given p node e node₀.core H C) (hm : Acts p H C m node₀.core) :
    StepSpec p node e (p.turn m node₀) := by
  cases hrun : node₀.aborted with
  | some q =>
    rw [turn_aborted hrun]
    refine ⟨?_, le_of_eq hround.symm, .inl haborted⟩
    rw [hidle q hrun]
    exact .idle
  | none =>
    obtain ⟨s, hs, heq | ⟨q, hq, heq⟩⟩ := turn_spec hrun hm
    · rw [heq]
      refine ⟨?_, le_of_eq hround.symm, .inl haborted⟩
      rw [hround]
      exact .turn hg hs
    rw [heq]
    exact ⟨.panic hg hs, le_of_eq hround.symm, .inr ⟨q, hq, rfl⟩⟩

/-- The turn of one of our own headers is that of a header handed to a core
that has just proposed it. -/
lemma turn_own (hrun : node.aborted = none) :
    p.turn (p.processOwnHeader h) node = p.turn (p.processHeader h)
      { node with core := Setup.propose h node.core } := by
  unfold turn
  rw [hrun]
  rfl

lemma step_spec (p : Setup) (node : Node) (e : Event) :
    StepSpec p node e (node.step p e) := by
  have quiet : StepSpec p node e node := ⟨.idle, le_refl _, .inl rfl⟩
  cases e with
  | message m =>
    obtain ⟨H, C, hg, hm⟩ := handle_acts (p := p) node m
    exact turn_step rfl rfl (fun _ _ => rfl) hg hm
  | loopHeader =>
    simp only [step]
    cases hrx : node.rxHeaderWaiter with
    | nil => exact quiet
    | cons h hs => exact turn_step rfl rfl (fun _ _ => rfl) (.loopHeader hrx) processHeader_acts
  | loopCertificate =>
    simp only [step]
    cases hrx : node.rxCertificateWaiter with
    | nil => exact quiet
    | cons c cs =>
      exact turn_step rfl rfl (fun _ _ => rfl) (.loopCertificate hrx) processCertificate_acts
  | own round payload parents =>
    cases hrun : node.aborted with
    | some q =>
      simp only [step, turn_aborted hrun]
      exact quiet
    | none =>
      simp only [step, turn_own hrun]
      refine turn_step rfl rfl (fun q hq => ?_) .own processHeader_acts
      rw [hrun] at hq
      cases hq
  | batch digest worker => exact ⟨.batch digest worker, le_refl _, .inl rfl⟩
  | commit c =>
    simp only [step]
    split
    next h => exact ⟨.idle, le_of_lt h, .inl rfl⟩
    next => exact quiet
  | waitHeader now =>
    simp only [step]
    cases htx : node.core.txHeaderWaiter with
    | nil => exact quiet
    | cons m ms =>
      simp only
      split
      · exact quiet
      unfold waiterTurn
      split <;> exact ⟨.takeSync htx, le_refl _, .inl rfl⟩
  | releaseHeader i =>
    simp only [step, releaseHeader]
    repeat' split
    all_goals exact ⟨.idle, le_refl _, .inl rfl⟩
  | cancelHeader i =>
    simp only [step, cancelHeader]
    repeat' split
    all_goals exact ⟨.idle, le_refl _, .inl rfl⟩
  | retry now =>
    simp only [step]
    split <;> exact ⟨.idle, le_refl _, .inl rfl⟩
  | waitCertificate =>
    simp only [step]
    cases htx : node.core.txCertificateWaiter with
    | nil => exact quiet
    | cons c cs => exact ⟨.takeCertificate htx, le_refl _, .inl rfl⟩
  | releaseCertificate i =>
    simp only [step, releaseCertificate]
    repeat' split
    all_goals exact ⟨.idle, le_refl _, .inl rfl⟩

lemma step_core (p : Setup) (node : Node) (e : Event) :
    CoreStep p node e (node.step p e).core :=
  (step_spec p node e).core

/-- The rule for invariants of the core: what holds before a turn's
effects, is preserved by each of them and by the cleanup, and does not
depend on markers and channels, is preserved by every event. -/
lemma CoreStep.invariant {I : Core → Prop} {s : Core}
    (hstep : CoreStep p node e s) (hI : I node.core) (hgiven : ∀ s₀ H C, Given p node e s₀ H C →
    I s₀ ∧ ∀ s s', Effect p H C s s' → I s → I s')
    (hclean : ∀ r s, I s → I (p.cleanup r s))
    (hbatch : ∀ d w s, I s → I (s.write (.payload d w) .marker))
    (hsync : ∀ ms s, I s → I { s with txHeaderWaiter := ms })
    (hcert : ∀ cs s, I s → I { s with txCertificateWaiter := cs }) :
    I s := by
  cases hstep with
  | idle => exact hI
  | panic hg he =>
    obtain ⟨h₀, heff⟩ := hgiven _ _ _ hg
    exact invariant_of_effects heff he h₀
  | turn hg he =>
    obtain ⟨h₀, heff⟩ := hgiven _ _ _ hg
    exact hclean _ _ (invariant_of_effects heff he h₀)
  | batch d w => exact hbatch d w _ hI
  | takeSync => exact hsync _ _ hI
  | takeCertificate => exact hcert _ _ hI

-- ==== circulation

/-- What is on the channels between the core and the waiters, and in their
pools. -/
structure Circulating (PH : Header → Prop) (PC : Certificate → Prop) (node : Node) : Prop where
  syncs : ∀ m ∈ node.core.txHeaderWaiter, PH m.header
  waiting : ∀ x ∈ node.headerWaiter.waiting, PH x.deliver
  headers : ∀ h ∈ node.rxHeaderWaiter, PH h
  suspended : ∀ c ∈ node.core.txCertificateWaiter, PC c
  certificates : ∀ c ∈ node.certificateWaiter, PC c
  looped : ∀ c ∈ node.rxCertificateWaiter, PC c

variable {PH : Header → Prop} {PC : Certificate → Prop}

lemma circulating_init : Circulating PH PC Node.init := by
  constructor <;> intro x hx <;> cases hx

/-- A turn sends on what it was handed and what it assembled. -/
lemma effects_sends {s s' : Core} (he : Effects p H C s s')
    (hH : ∀ h, H h → PH h) (hC : ∀ c, C c → PC c)
    (hlog : ∀ c, Output.broadcast (.certificate c) ∈ s'.log → PC c)
    (hs : ∀ m ∈ s.txHeaderWaiter, PH m.header)
    (hc : ∀ c ∈ s.txCertificateWaiter, PC c) :
    (∀ m ∈ s'.txHeaderWaiter, PH m.header)
      ∧ ∀ c ∈ s'.txCertificateWaiter, PC c := by
  induction he with
  | refl => exact ⟨hs, hc⟩
  | @tail s₁ s₂ he hlast ih =>
    have hprev := ih fun c hc => hlog c (hlast.grows.log.subset hc)
    cases hlast with
    | @sync m hm =>
      refine ⟨fun m' hm' => ?_, hprev.2⟩
      rcases List.mem_append.mp hm' with hm' | hm'
      · exact hprev.1 m' hm'
      cases List.mem_singleton.mp hm'
      exact hH _ hm
    | @suspend c hoff =>
      refine ⟨hprev.1, fun c' hc' => ?_⟩
      rcases List.mem_append.mp hc' with hc' | hc'
      · exact hprev.2 c' hc'
      cases List.mem_singleton.mp hc'
      rcases hoff with hoff | hoff
      · exact hC _ hoff
      exact hlog _ hoff
    | _ => exact hprev

-- The cleanup leaves channels, log, store and votes alone.

section

variable (r : Nat) (s : Core)

@[simp] lemma cleanup_txHeaderWaiter :
    (p.cleanup r s).txHeaderWaiter = s.txHeaderWaiter := by
  unfold cleanup
  split <;> rfl

@[simp] lemma cleanup_txCertificateWaiter :
    (p.cleanup r s).txCertificateWaiter = s.txCertificateWaiter := by
  unfold cleanup
  split <;> rfl

@[simp] lemma cleanup_log : (p.cleanup r s).log = s.log := by
  unfold cleanup
  split <;> rfl

@[simp] lemma cleanup_delivered : (p.cleanup r s).delivered = s.delivered := by
  unfold Core.delivered
  rw [cleanup_log]

@[simp] lemma cleanup_store : (p.cleanup r s).store = s.store := by
  unfold cleanup
  split <;> rfl

@[simp] lemma cleanup_currentHeader :
    (p.cleanup r s).currentHeader = s.currentHeader := by
  unfold cleanup
  split <;> rfl

@[simp] lemma cleanup_votesAggregator :
    (p.cleanup r s).votesAggregator = s.votesAggregator := by
  unfold cleanup
  split <;> rfl

end

lemma CoreStep.sends {s : Core} (hstep : CoreStep p node e s)
    (hc : Circulating PH PC node)
    (hgiven : ∀ s₀ H C, Given p node e s₀ H C →
      (∀ h, H h → PH h) ∧ ∀ c, C c → PC c)
    (hlog : ∀ c, Output.broadcast (.certificate c) ∈ s.log → PC c) :
    (∀ m ∈ s.txHeaderWaiter, PH m.header)
      ∧ ∀ c ∈ s.txCertificateWaiter, PC c := by
  -- Proposing a header sends nothing to the waiters.
  have start : ∀ {s₀ H C}, Given p node e s₀ H C → s₀.txHeaderWaiter = node.core.txHeaderWaiter
        ∧ s₀.txCertificateWaiter = node.core.txCertificateWaiter := by
    intro s₀ H C hg
    cases hg <;> exact ⟨rfl, rfl⟩
  cases hstep with
  | idle => exact ⟨hc.syncs, hc.suspended⟩
  | panic hg he =>
    obtain ⟨hH, hC⟩ := hgiven _ _ _ hg
    refine effects_sends he hH hC hlog ?_ ?_
    · rw [(start hg).1]
      exact hc.syncs
    rw [(start hg).2]
    exact hc.suspended
  | turn hg he =>
    obtain ⟨hH, hC⟩ := hgiven _ _ _ hg
    simp only [cleanup_txHeaderWaiter, cleanup_txCertificateWaiter]
    rw [cleanup_log] at hlog
    refine effects_sends he hH hC hlog ?_ ?_
    · rw [(start hg).1]
      exact hc.syncs
    rw [(start hg).2]
    exact hc.suspended
  | batch => exact ⟨hc.syncs, hc.suspended⟩
  | takeSync htx =>
    refine ⟨fun m hm => hc.syncs m ?_, hc.suspended⟩
    rw [htx]
    exact List.mem_cons_of_mem _ hm
  | takeCertificate htx =>
    refine ⟨hc.syncs, fun c hm => hc.suspended c ?_⟩
    rw [htx]
    exact List.mem_cons_of_mem _ hm

/-- The pool of the `HeaderWaiter` gains at most a header `h`. -/
def Gains (h : Header) (w w' : HeaderWaiter) : Prop :=
  ∀ x ∈ w'.waiting, x ∈ w.waiting ∨ x.deliver = h

lemma gains_add (keys : List Key) (h : Header) (w : HeaderWaiter) :
    Gains h w (w.add keys h) := by
  intro x hx
  rcases List.mem_append.mp hx with hx | hx
  · exact .inl hx
  cases List.mem_singleton.mp hx
  exact .inr rfl

lemma gains_of_eq {w w' : HeaderWaiter} (heq : w'.waiting = w.waiting) :
    Gains h w w' :=
  fun _ hx => .inl (heq ▸ hx)

lemma requestBatches_gains (author : PublicKey)
    (l : List (Sigma fun _ : Nat => List Digest)) (w : HeaderWaiter) :
    Does (Gains h) (fun _ => True) (p.requestBatches author l) w fun _ _ =>
      True := by
  induction l generalizing w with
  | nil => exact of_pure trivial
  | cons e l ih =>
    unfold requestBatches
    split
    · exact modify_bind (gains_of_eq rfl) (ih _)
    exact of_throw trivial

lemma waitHeader_gains (now : Nat) (m : WaiterMessage) (w : HeaderWaiter) :
    Does (Gains m.header) (fun _ => True) (p.waitHeader now m) w fun _ _ =>
      True := by
  cases m with
  | syncBatches missing h =>
    apply get_bind
    split
    · exact of_pure trivial
    apply modify_bind (gains_add _ _ _)
    apply modify_bind (gains_of_eq rfl)
    exact bind (requestBatches_gains _ _ _) fun _ _ _ _ => of_pure trivial
  | syncParents missing h =>
    apply get_bind
    split
    · exact of_pure trivial
    apply modify_bind (gains_add _ _ _)
    apply modify_bind (gains_of_eq rfl)
    split
    · exact of_pure trivial
    split
    · exact modify_bind (gains_of_eq rfl) (of_pure trivial)
    exact of_throw trivial

/-- The pool after a message: what was there, and the header of the
message. -/
lemma waitHeader_waiting (now : Nat) (m : WaiterMessage) (w : HeaderWaiter) :
    Gains m.header w (final (p.waitHeader now m) w) :=
  invariant_of_effects (I := fun w' => Gains m.header w w')
    (fun _ _ hr hI x hx => (hr x hx).elim (hI x) .inr)
    (waitHeader_gains now m w).effects fun _ hx => .inl hx

@[simp] lemma cleanupWaiter_waiting (r : Nat) (w : HeaderWaiter) :
    (p.cleanupWaiter r w).waiting = w.waiting := by
  unfold cleanupWaiter
  split <;> rfl

/-- A turn of the `HeaderWaiter` changes its pool and nothing else that
circulates. -/
lemma waiterTurn_frame (node : Node) (now : Nat) (m : WaiterMessage) :
    ∃ w q, p.waiterTurn now m node = { node with headerWaiter := w, waiterAborted := q }
      ∧ Gains m.header node.headerWaiter w := by
  have hgain := waitHeader_waiting (p := p) now m node.headerWaiter
  unfold waiterTurn
  unfold final at hgain
  revert hgain
  cases p.waitHeader now m node.headerWaiter with
  | error q w => exact fun hgain => ⟨w, some q, rfl, hgain⟩
  | ok b w =>
    intro hgain
    cases b with
    | false => exact ⟨w, node.waiterAborted, rfl, hgain⟩
    | true =>
      refine ⟨_, node.waiterAborted, rfl, fun x hx => hgain x ?_⟩
      rwa [cleanupWaiter_waiting] at hx

/-- What is in the pools and on the channels back to the core, apart from
the channels out of it. -/
structure Pooled (PH : Header → Prop) (PC : Certificate → Prop) (node : Node) : Prop where
  waiting : ∀ x ∈ node.headerWaiter.waiting, PH x.deliver
  headers : ∀ h ∈ node.rxHeaderWaiter, PH h
  certificates : ∀ c ∈ node.certificateWaiter, PC c
  looped : ∀ c ∈ node.rxCertificateWaiter, PC c

/-- A turn of the core leaves the other tasks alone. -/
lemma Pooled.turn (hp : Pooled PH PC node) (m : Action Unit) :
    Pooled PH PC (p.turn m node) := by
  unfold Setup.turn
  split
  · exact hp
  split <;> exact { hp with }

/-- Pools and channels are filled from one another. -/
lemma step_pooled (e : Event) (hc : Circulating PH PC node) :
    Pooled PH PC (node.step p e) := by
  have hp : Pooled PH PC node := { hc with }
  cases e with
  | message m => exact hp.turn _
  | loopHeader =>
    simp only [step]
    cases hrx : node.rxHeaderWaiter with
    | nil => exact hp
    | cons h hs =>
      refine Pooled.turn ?_ _
      refine ⟨hp.1, fun h' hh' => hp.headers h' ?_, hp.3, hp.4⟩
      rw [hrx]
      exact List.mem_cons_of_mem _ hh'
  | loopCertificate =>
    simp only [step]
    cases hrx : node.rxCertificateWaiter with
    | nil => exact hp
    | cons c cs =>
      refine Pooled.turn ?_ _
      refine ⟨hp.1, hp.2, hp.3, fun c' hc' => hp.looped c' ?_⟩
      rw [hrx]
      exact List.mem_cons_of_mem _ hc'
  | own round payload parents => exact hp.turn _
  | batch digest worker => exact { hp with }
  | commit c =>
    simp only [step]
    split
    · exact { hp with }
    exact hp
  | waitHeader now =>
    simp only [step]
    cases htx : node.core.txHeaderWaiter with
    | nil => exact hp
    | cons m ms =>
      simp only
      split
      · exact hp
      obtain ⟨w, q, heq, hgain⟩ := waiterTurn_frame (p := p)
        { node with core := { node.core with txHeaderWaiter := ms } } now m
      rw [heq]
      refine ⟨fun x hx => ?_, hp.2, hp.3, hp.4⟩
      rcases hgain x hx with hx | hx
      · exact hp.waiting x hx
      rw [hx]
      refine hc.syncs m ?_
      rw [htx]
      exact List.mem_cons_self ..
  | releaseHeader i =>
    simp only [step]
    split
    · exact hp
    unfold releaseHeader
    split
    · exact hp
    next x hx =>
    split
    · refine ⟨fun y hy => ?_, fun h hh => ?_, hp.3, hp.4⟩
      · rw [cleanupWaiter_waiting] at hy
        exact hp.waiting y (List.mem_of_mem_eraseIdx hy)
      rcases List.mem_append.mp hh with hh | hh
      · exact hp.headers h hh
      cases List.mem_singleton.mp hh
      exact hp.waiting x (List.mem_of_getElem? hx)
    exact hp
  | cancelHeader i =>
    simp only [step]
    split
    · exact hp
    unfold cancelHeader
    split
    · exact hp
    split
    · exact hp
    refine ⟨fun y hy => ?_, hp.2, hp.3, hp.4⟩
    rw [cleanupWaiter_waiting] at hy
    exact hp.waiting y (List.mem_of_mem_eraseIdx hy)
  | retry now =>
    simp only [step]
    split
    · exact hp
    refine ⟨fun y hy => ?_, hp.2, hp.3, hp.4⟩
    rw [cleanupWaiter_waiting] at hy
    exact hp.waiting y hy
  | waitCertificate =>
    simp only [step]
    cases htx : node.core.txCertificateWaiter with
    | nil => exact hp
    | cons c cs =>
      refine ⟨hp.1, hp.2, fun c' hc' => ?_, hp.4⟩
      rcases List.mem_append.mp hc' with hc' | hc'
      · exact hp.certificates c' hc'
      cases List.mem_singleton.mp hc'
      refine hc.suspended c ?_
      rw [htx]
      exact List.mem_cons_self ..
  | releaseCertificate i =>
    simp only [step, releaseCertificate]
    split
    · exact hp
    next c hci =>
    split
    · refine ⟨hp.1, hp.2, fun c' hc' => ?_, fun c' hc' => ?_⟩
      · exact hp.certificates c' (List.mem_of_mem_eraseIdx hc')
      rcases List.mem_append.mp hc' with hc' | hc'
      · exact hp.looped c' hc'
      cases List.mem_singleton.mp hc'
      exact hp.certificates c (List.mem_of_getElem? hci)
    exact hp

/-- What circulates after an event, given what the event hands to the core
and what the core has assembled. -/
lemma step_circulating (hc : Circulating PH PC node)
    (hgiven : ∀ s₀ H C, Given p node e s₀ H C →
      (∀ h, H h → PH h) ∧ ∀ c, C c → PC c)
    (hlog : ∀ c, Output.broadcast (.certificate c) ∈ (node.step p e).core.log →
      PC c) :
    Circulating PH PC (node.step p e) := by
  obtain ⟨hsyncs, hsusp⟩ := (step_core p node e).sends hc hgiven hlog
  have hp := step_pooled (p := p) e hc
  exact ⟨hsyncs, hp.waiting, hp.headers, hsusp, hp.certificates, hp.looped⟩

end HetuEngine.Primary
