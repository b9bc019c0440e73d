/-
What the local node finalizes.

At each height two `NewHeight` timeouts are pending: one of
`enter_new_height` and one of its caller. Each begins a round, with a new
proposal. When the second arrives after the application accepted the first
proposal, the accepted block is replaced by a new one, and the `Commit`
timeout that is pending already finalizes that one, which the application
has never seen (`finalized_accepted_fails`): `handle_timeout` does not look
at the step.

If every `Commit` timeout of the current height and round finds the node in
the commit step, only accepted blocks are finalized. The heights of the
finalized blocks are consecutive in every case (`finalized_accepted`).
-/
import HetuEngine.Lib.Along
import HetuEngine.Local.State

namespace HetuEngine.Local

open Lib List Fallible Ends Machine Params Call

/-- The blocks for which `FinalizeBlock` was sent. -/
def Machine.finalized (m : Machine) : List Block :=
  m.calls.filterMap fun
    | .finalizeBlock block => some block
    | _ => none

def Machine.accepted (m : Machine) (block : Block) : Prop :=
  .processProposal block (.ok statusAccept) ∈ m.calls

/-- A `Commit` timeout that is not stale finds the node in the commit
step. -/
def InCommit (m : Machine) (e : Event) : Prop :=
  ∀ t, m.pending[e.index]? = some t → t.step = .commit
    → t.height = m.roundState.height → t.round = m.roundState.round → m.roundState.step = .commit

variable {p : Params} {m m' : Machine} {c : Prop}

-- ==== the new proposal

variable {height : Height} {startTime : Time} {t : TimeoutInfo}

lemma createBlockHeader_height {header : Header}
    (h : p.createBlockHeader startTime height = .ok header) :
    header.height = height := by
  obtain ⟨proposer, -, h⟩ := bind_eq_ok.mp h
  obtain ⟨lastBlockId, -, h⟩ := bind_eq_ok.mp h
  obtain ⟨chainId, -, h⟩ := bind_eq_ok.mp h
  cases h
  rfl

lemma createBlock_height {block : Block}
    (h : p.createBlock startTime height = .ok block) :
    block.header.height = height := by
  obtain ⟨header, hheader, h⟩ := bind_eq_ok.mp h
  obtain ⟨lastCommit, -, h⟩ := bind_eq_ok.mp h
  obtain ⟨-, -, h⟩ := bind_eq_ok.mp h
  cases h
  exact createBlockHeader_height hheader

lemma prepareProposal_height
    {block : Block} (h : p.prepareProposal startTime height = .ok block) :
    block.header.height = height := by
  obtain ⟨-, -, h⟩ := bind_eq_ok.mp h
  obtain ⟨block', hblock', h⟩ := bind_eq_ok.mp h
  have hheight := createBlock_height hblock'
  split at h
  · unfold signBlock at h
    obtain ⟨signature, -, h⟩ := bind_eq_ok.mp h
    cases h
    exact hheight
  cases h
  exact hheight

-- ==== invariant

/-- What holds of the calls, also after a failure; with `c`, all finalized
blocks were accepted. -/
structure Recorded (p : Params) (c : Prop) (m : Machine) : Prop where
  heights : m.finalized.map (fun b => b.header.height)
    = List.range' (p.stateHeight + 1) m.finalized.length
  kept : c → ∀ block ∈ m.finalized, m.accepted block

structure Running (p : Params) (m : Machine) : Prop where
  height : m.roundState.height = p.stateHeight + 1 + m.finalized.length
  block : ∀ block, m.roundState.proposalBlock = some block →
    block.header.height = m.roundState.height
  commit : m.roundState.step = .commit →
    ∃ block, m.roundState.proposalBlock = some block ∧ m.accepted block

lemma Recorded.congr (h : Recorded p c m) (hcalls : m'.calls = m.calls) :
    Recorded p c m' := by
  have hf : m'.finalized = m.finalized := by
    unfold finalized
    rw [hcalls]
  refine ⟨by rw [hf]; exact h.heights, fun hc block hb => ?_⟩
  rw [hf] at hb
  unfold accepted
  rw [hcalls]
  exact h.kept hc block hb

lemma finalized_call {call : Call} (h : ∀ block, call ≠ .finalizeBlock block) :
    (m.call call).finalized = m.finalized := by
  unfold Machine.finalized Machine.call
  rw [filterMap_append]
  cases call with
  | finalizeBlock block => exact absurd rfl (h block)
  | _ => exact append_nil _

lemma Machine.accepted.call {block : Block} (h : m.accepted block)
    (call : Call) : (m.call call).accepted block :=
  mem_append_left _ h

lemma Recorded.call (h : Recorded p c m) (call : Call)
    (hcall : ∀ block, call ≠ .finalizeBlock block) :
    Recorded p c (m.call call) := by
  have hf := finalized_call (m := m) hcall
  refine ⟨by rw [hf]; exact h.heights, fun hc block hb => ?_⟩
  rw [hf] at hb
  exact (h.kept hc block hb).call call

lemma finalized_finalize (block : Block) :
    (m.call (.finalizeBlock block)).finalized = m.finalized ++ [block] := by
  unfold finalized call
  rw [filterMap_append]
  rfl

lemma Recorded.finalize (h : Recorded p c m) {block : Block}
    (hheight : block.header.height = p.stateHeight + 1 + m.finalized.length)
    (hacc : c → m.accepted block) :
    Recorded p c (m.call (.finalizeBlock block)) := by
  have hf := finalized_finalize (m := m) block
  constructor
  · rw [hf, map_append, h.heights, length_append,
      length_singleton, range'_concat, Nat.one_mul, ← hheight]
    rfl
  intro hc b hb
  rw [hf] at hb
  rcases mem_append.mp hb with hb | hb
  · exact (h.kept hc b hb).call _
  rw [mem_singleton.mp hb]
  exact (hacc hc).call _

-- ==== arms

lemma other_eq_ok {α : Type} {x : Except String α} {a : α} :
    other x = .ok a ↔ x = .ok a := by
  unfold other
  cases x with
  | ok b | error e => simp [Except.mapError]

section

variable (hrec : Recorded p c m) (hrun : Running p m) (a : Answers)

include hrec hrun

lemma ends_onNewHeight (ht : t.height = m.roundState.height) :
    Ends (p.onNewHeight t a) m (fun _ m' => Recorded p c m' ∧ Running p m')
      (Recorded p c) := by
  refine modify_bind (bind ?_)
  refine get_bind ?_
  rw [if_neg (by simp [setRoundState])]
  refine modify_bind (lift_bind (hrec.congr rfl) ?_)
  intro block hblock
  refine of_modify (of_modify ⟨hrec.congr rfl, ?_, ?_, ?_⟩)
  · exact ht.trans hrun.height
  · intro block' hb
    cases hb
    exact prepareProposal_height hblock
  intro hstep
  cases hstep

lemma ends_onPropose (ht : t.height = m.roundState.height) :
    Ends (onPropose t a) m (fun _ m' => Recorded p c m' ∧ Running p m')
      (Recorded p c) := by
  refine get_bind ?_
  split
  · exact of_throw hrec
  next block hblock =>
  have hprep : ∀ b, prepareProposal block ≠ .finalizeBlock b := fun b heq => by cases heq
  have hrec₁ := hrec.call _ hprep
  refine modify_bind (lift_bind hrec₁ fun txs _ => ?_)
  have hproc : ∀ b, processProposal { block with data := txs }
      a.processProposal ≠ .finalizeBlock b := fun b heq => by cases heq
  have hrec₂ := hrec₁.call _ hproc
  refine modify_bind (lift_bind hrec₂ fun status hstatus => ?_)
  have hf : ((m.call (.prepareProposal block)).call (.processProposal { block with data := txs }
        a.processProposal)).finalized = m.finalized := by
    rw [finalized_call hproc, finalized_call hprep]
  split
  · next haccept =>
    refine modify_bind (bind (get_bind ?_))
    rw [if_neg (fun hne => hne ht)]
    refine modify_bind (of_modify (of_modify ⟨hrec₂.congr rfl, ?_, ?_, ?_⟩))
    · show m.roundState.height = _
      rw [hrun.height]
      exact congrArg (fun l => p.stateHeight + 1 + length l) hf.symm
    · intro b hb
      cases hb
      exact hrun.block block hblock
    intro _
    refine ⟨_, rfl, ?_⟩
    have hresp : a.processProposal = .ok statusAccept := by
      rw [← haccept]
      exact other_eq_ok.mp hstatus
    show processProposal _ (.ok statusAccept) ∈ (m.calls ++ [_]) ++ [processProposal _ _]
    rw [hresp]
    exact mem_append_right _ (mem_singleton.mpr rfl)
  refine of_pure ⟨hrec₂, ?_, hrun.block, ?_⟩
  · rw [hf]
    exact hrun.height
  intro hstep
  obtain ⟨b, hb, hacc⟩ := hrun.commit hstep
  exact ⟨b, hb, (hacc.call _).call _⟩

lemma ends_onCommit (hc : c → m.roundState.step = .commit) :
    Ends (onCommit a) m (fun _ m' => Recorded p c m' ∧ Running p m')
      (Recorded p c) := by
  refine get_bind ?_
  split
  · exact of_throw hrec
  next block hblock =>
  have hheight := (hrun.block block hblock).trans hrun.height
  have hacc : c → m.accepted block := by
    intro hc'
    obtain ⟨b, hb, hacc⟩ := hrun.commit (hc hc')
    rw [hblock] at hb
    cases hb
    exact hacc
  have hrec₁ := hrec.finalize hheight hacc
  have hcall : ∀ b, commit ≠ .finalizeBlock b := fun b heq => by cases heq
  have hrec₂ := hrec₁.call .commit hcall
  have hf : ((m.call (.finalizeBlock block)).call .commit).finalized = m.finalized ++ [block] := by
    rw [finalized_call hcall, finalized_finalize]
  refine bind (modify_bind (lift_bind hrec₁ fun _ _ => ?_))
  refine modify_bind (lift_bind hrec₂ fun _ _ => ?_)
  refine of_modify ?_
  refine bind (get_bind ?_)
  split
  · refine modify_bind (of_modify (of_modify ⟨hrec₂.congr rfl, ?_, ?_, ?_⟩))
    · show block.header.height + 1 = p.stateHeight + 1
        + ((m.call (.finalizeBlock block)).call .commit).finalized.length
      rw [hf, hheight, length_append]
      rfl
    · intro b hb
      cases hb
    intro hstep
    cases hstep
  exact of_throw (hrec₂.congr rfl)

end

structure Inv (p : Params) (c : Prop) (m : Machine) : Prop where
  recorded : Recorded p c m
  running : m.halted = none → Running p m

lemma ends_perform {act : Action Unit}
    (h : Ends act m (fun _ m' => Recorded p c m' ∧ Running p m')
      (Recorded p c)) :
    Inv p c (perform act m) := by
  unfold Ends at h
  unfold perform
  revert h
  cases act m with
  | ok a m' => exact fun h => ⟨h.1, fun _ => h.2⟩
  | error e m' => exact fun h => ⟨h.congr rfl, nofun⟩

lemma Inv.step (h : Inv p c m) {e : Event} (hc : c → InCommit m e) :
    Inv p c (p.step m e) := by
  unfold Params.step
  split
  · next t hhalt ht =>
    have hrec : Recorded p c
        { m with pending := m.pending.eraseIdx e.index } :=
      h.recorded.congr rfl
    have hrun := h.running hhalt
    have hrun' : Running p
        { m with pending := m.pending.eraseIdx e.index } :=
      { hrun with }
    refine ends_perform ?_
    refine get_bind ?_
    split
    · exact of_pure ⟨hrec, hrun'⟩
    next hcur =>
    have hheight : t.height = m.roundState.height := by
      by_contra hne
      exact hcur (.inl hne)
    have hround : t.round = m.roundState.round := by
      by_contra hne
      exact hcur (.inr hne)
    split
    · exact ends_onNewHeight hrec hrun' e.answers hheight
    · exact ends_onPropose hrec hrun' e.answers hheight
    · next hstep =>
      refine ends_onCommit hrec hrun' e.answers ?_
      exact fun hc' => hc hc' t ht hstep hheight hround
    exact of_pure ⟨hrec, hrun'⟩
  exact h

lemma inv_started (p : Params) (c : Prop) (created now : Time) :
    Inv p c (p.started created now) := by
  have hrec : Recorded p c (p.new created) := ⟨rfl, fun _ block hb => by cases hb⟩
  refine ends_perform ?_
  refine bind (get_bind ?_)
  split
  · refine modify_bind (of_modify (of_modify ⟨hrec.congr rfl, rfl, ?_, ?_⟩))
    · intro b hb
      cases hb
    intro hstep
    cases hstep
  exact of_throw hrec

lemma inv_run {created now : Time} {es : List Event}
    (hc : c →
      Along (fun before e => InCommit (p.run created now before) e) [] es) :
    Inv p c (p.run created now es) := by
  induction es using reverseRecOn with
  | nil => exact inv_started p c created now
  | append_singleton es e ih =>
    rw [p.run_concat]
    have hc' := fun h => along_concat.mp (hc h)
    exact (ih fun h => (hc' h).1).step fun h => (hc' h).2

/-- The heights of the finalized blocks are consecutive from the first on,
for every order of the timeouts; and if no `Commit` timeout arrives outside
the commit step, every finalized block is one the application accepted. -/
theorem finalized_accepted (p : Params) (created now : Time)
    (es : List Event) :
    (p.run created now es).finalized.map (fun b => b.header.height)
      = List.range' (p.stateHeight + 1) (p.run created now es).finalized.length
      ∧ (Along (fun before e => InCommit (p.run created now before) e) [] es →
        ∀ block ∈ (p.run created now es).finalized, (p.run created now
          es).accepted block) := by
  constructor
  · exact (inv_run (c := False) False.elim).recorded.heights
  intro h
  exact (inv_run (c := True) fun _ => h).recorded.kept trivial

-- ==== a single node

namespace Solo

def params : Params where
  stateHeight := 0
  stateRound := 0
  chainId := .ok "solo"
  proposer := some [1]
  validatorsHash := []
  lastBlockId := .ok none
  checkBlock _ _ := .ok ()
  validatorKey := none

def answers (time : Time) : Answers := ⟨time, time, .ok [[7]], .ok statusAccept, .ok (), .ok ()⟩

def block (time : Time) (data : List Tx) : Block :=
  ⟨⟨"solo", 1, time, none, [], [], [1]⟩, data, none⟩

end Solo

/-- The first proposal is accepted and committed; the second `NewHeight`
timeout is still pending. -/
theorem finalized_accepted_once :
    (Solo.params.run 0 1 [⟨0, Solo.answers 2⟩, ⟨1, Solo.answers 3⟩,
      ⟨1, Solo.answers 4⟩]).finalized
      = [Solo.block 2 [[7]]]
      ∧ (Solo.params.run 0 1 [⟨0, Solo.answers 2⟩, ⟨1, Solo.answers 3⟩,
        ⟨1, Solo.answers 4⟩]).accepted (Solo.block 2 [[7]]) := by
  refine ⟨rfl, (finalized_accepted Solo.params 0 1
    [⟨0, Solo.answers 2⟩, ⟨1, Solo.answers 3⟩, ⟨1, Solo.answers 4⟩]).2
    ⟨?_, ?_, ?_, trivial⟩ _ (mem_singleton.mpr rfl)⟩
  · intro t ht hstep
    cases ht
    cases hstep
  · intro t ht hstep
    cases ht
    cases hstep
  intro t _ _ _ _
  rfl

/-- The second `NewHeight` timeout arrives between the acceptance of the
first proposal and its commit: an empty block that the application never
saw is finalized. -/
theorem finalized_accepted_fails :
    ¬ ∀ (p : Params) (created now : Time) (es : List Event), ∀ block ∈
      (p.run created now es).finalized, (p.run created now es).accepted
      block := by
  intro hall
  have h := hall Solo.params 0 1 [⟨0, Solo.answers 2⟩, ⟨1, Solo.answers 3⟩,
    ⟨0, Solo.answers 4⟩, ⟨0, Solo.answers 5⟩] (Solo.block 4 []) (mem_singleton.mpr rfl)
  have hcalls : (Solo.params.run 0 1 [⟨0, Solo.answers 2⟩,
      ⟨1, Solo.answers 3⟩, ⟨0, Solo.answers 4⟩, ⟨0, Solo.answers 5⟩]).calls
    = [.prepareProposal (Solo.block 2 []), .processProposal (Solo.block 2 [[7]]) (.ok statusAccept),
      .finalizeBlock (Solo.block 4 []), .commit] := rfl
  unfold accepted at h
  rw [hcalls] at h
  simp [Solo.block] at h

end HetuEngine.Local
