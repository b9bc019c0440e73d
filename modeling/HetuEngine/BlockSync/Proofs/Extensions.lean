/-
Whether vote extensions are enabled, over the history of a chain.

With every block the application can change the height from which extensions
are enabled. `ValidateUpdate` lets through what changes nothing up to the
height of the block, so a node that looks back finds for each height what was
in force when its block was made. The very next block can get extensions.
-/
import HetuEngine.BlockSync.Proofs.Certified

namespace HetuEngine.Blocks

open Comet BlockSync BlockSync.Reactor

structure Applied where
  blockID : BlockID
  header : Header
  resp : FinalizeResponse

/-- `updateState`, for one block after the other. -/
def updateStates (c : Verifier) (enc : StateEncoding) : State → List Applied →
    Except ApplyError State
  | state, [] => .ok state
  | state, a :: rest =>
    match updateState c enc state a.blockID a.header a.resp with
    | .error err => .error err
    | .ok state' => updateStates c enc state' rest

def State.enabled (state : State) (k : Int) : Except CommitPanic Bool :=
  state.consensusParams.abci.voteExtensionsEnabled k

variable {c : Verifier} {enc : StateEncoding} {state state' : State}

lemma updateState_enabled {a : Applied}
    (hvalid : 0 ≤ state.consensusParams.abci.voteExtensionsEnableHeight)
    (h : updateState c enc state a.blockID a.header a.resp = .ok state') :
    0 ≤ state'.consensusParams.abci.voteExtensionsEnableHeight
    ∧ ∀ k ≤ a.header.height, state'.enabled k = state.enabled k := by
  unfold updateState at h
  split at h
  · cases h
  split at h
  · cases h
  split at h
  · cases h
  next hparams =>
  cases h
  exact voteExtensionsEnabled_nextParams hvalid hparams

lemma updateStates_enabled {blocks : List Applied}
    (hvalid : 0 ≤ state.consensusParams.abci.voteExtensionsEnableHeight)
    (h : updateStates c enc state blocks = .ok state') :
    0 ≤ state'.consensusParams.abci.voteExtensionsEnableHeight
      ∧ ∀ k, (∀ a ∈ blocks, k ≤ a.header.height) →
        state'.enabled k = state.enabled k := by
  induction blocks generalizing state with
  | nil =>
    cases h
    exact ⟨hvalid, fun _ _ => rfl⟩
  | cons a rest ih =>
    unfold updateStates at h
    split at h
    · cases h
    next hstep =>
    obtain ⟨hvalid', hsame⟩ := updateState_enabled hvalid hstep
    obtain ⟨hlast, hlater⟩ := ih hvalid' h
    refine ⟨hlast, fun k hk => ?_⟩
    obtain ⟨ha, hrest⟩ := List.forall_mem_cons.mp hk
    rw [hlater k hrest, hsame k ha]

lemma enabled_mono {k k' : Int} (hk : k ≤ k')
    (h : state.enabled k = .ok true) : state.enabled k' = .ok true := by
  unfold State.enabled ABCIParams.voteExtensionsEnabled at *
  split at h
  · cases h
  split at h
  · cases h
  injection h with h
  rw [if_neg (by omega), if_neg ‹_›, decide_eq_true ((of_decide_eq_true h).trans hk)]

/-- In a chain of blocks with rising heights, no block changes whether
extensions are enabled at its height or before, nor do those after it; and
once extensions are enabled at the height of a block, they are for ever. -/
theorem extensions_settled (c : Verifier) (enc : StateEncoding)
    (state : State)
    (hvalid : 0 ≤ state.consensusParams.abci.voteExtensionsEnableHeight)
    {before after : List Applied} {block : Applied}
    (hrising : (before ++ block :: after).Pairwise fun a b => a.header.height <
      b.header.height)
    {atBlock last : State}
    (hbefore : updateStates c enc state before = .ok atBlock)
    (hafter : updateStates c enc atBlock (block :: after) = .ok last) :
    (∀ k ≤ block.header.height, last.enabled k = atBlock.enabled k)
      ∧ (atBlock.enabled block.header.height = .ok true →
        ∀ k, block.header.height ≤ k → last.enabled k = .ok true) := by
  have hblock := List.pairwise_cons.mp (List.pairwise_append.mp hrising).2.1
  have hsame : ∀ k ≤ block.header.height, last.enabled k = atBlock.enabled k := by
    intro k hk
    refine (updateStates_enabled (updateStates_enabled hvalid hbefore).1 hafter).2 k ?_
    exact List.forall_mem_cons.mpr ⟨hk, fun a ha => hk.trans (hblock.1 a ha).le⟩
  refine ⟨hsame, fun h k hk => enabled_mono hk ?_⟩
  rw [hsame _ le_rfl]
  exact h

def syncApplied (height : Int) (abci : Option ABCIParams) : Applied where
  blockID := .zero
  header := { (syncFirst 0).header with height := height }
  resp := ⟨[], [], some ⟨none, none, none, none, abci⟩, []⟩

/-- The first block enables extensions from the second on. -/
theorem extensions_settled_from_two : ∃ atBlock last,
    updateStates sampleVerifier syncEncoding (syncState 0)
      [syncApplied 1 (some ⟨2⟩)] = .ok atBlock
    ∧ updateStates sampleVerifier syncEncoding atBlock
      [syncApplied 2 none, syncApplied 3 none] = .ok last
    ∧ last.enabled 1 = .ok false ∧ ∀ k, 2 ≤ k → last.enabled k = .ok true := by
  have hrun : (updateStates sampleVerifier syncEncoding (syncState 0)
      [syncApplied 1 (some ⟨2⟩)]).toOption.any (fun atBlock =>
        atBlock.enabled 1 = .ok false ∧ atBlock.enabled 2 = .ok true
        ∧ (updateStates sampleVerifier syncEncoding atBlock
          [syncApplied 2 none, syncApplied 3 none]).isOk = true) = true := by
    decide +kernel
  cases hbefore : updateStates sampleVerifier syncEncoding (syncState 0)
      [syncApplied 1 (some ⟨2⟩)] with
  | error err =>
    rw [hbefore] at hrun
    cases hrun
  | ok atBlock =>
    rw [hbefore] at hrun
    obtain ⟨hone, htwo, hok⟩ := of_decide_eq_true hrun
    cases hafter : updateStates sampleVerifier syncEncoding atBlock
        [syncApplied 2 none, syncApplied 3 none] with
    | error err =>
      rw [hafter] at hok
      cases hok
    | ok last =>
      obtain ⟨hsame, hlater⟩ := extensions_settled _ _ (syncState 0)
        (by decide) (by decide : ([_] ++ _).Pairwise _) hbefore hafter
      exact ⟨atBlock, last, rfl, hafter, (hsame 1 (by decide)).trans hone,
        hlater htwo⟩

/-- The first block enables extensions for the second. -/
theorem next_block_enabled :
    (syncState 0).enabled 2 = .ok false
      ∧ (updateStates sampleVerifier syncEncoding (syncState 0)
        [syncApplied 1 (some ⟨2⟩)]).toOption.any
        (fun last => last.enabled 2 = .ok true) = true := by
  decide +kernel

end HetuEngine.Blocks
