/-
What saving a block writes: the parts, the meta, the index from the hash and
the commits, of its own height, and the bounds.
-/
import HetuEngine.Blocks.Store

namespace HetuEngine.Blocks

open Lib Comet EvidencePool BlockStore Database

variable {enc : BlockEncoding}

lemma present_eq_some {α : Type} {l : List (Option α)} {as : List α} :
    present l = some as ↔ l = as.map some := by
  induction l generalizing as with
  | nil =>
    cases as with
    | nil => exact ⟨fun _ => rfl, fun _ => rfl⟩
    | cons a as => exact ⟨nofun, nofun⟩
  | cons o l ih =>
    cases o with
    | none =>
      cases as with
      | nil | cons a as => exact ⟨nofun, nofun⟩
    | some b =>
      simp only [present, Option.map_eq_some_iff]
      constructor
      · rintro ⟨bs, hbs, rfl⟩
        rw [ih.mp hbs]
        rfl
      intro h
      cases as with
      | nil => cases h
      | cons a as =>
        injection h with hb hl
        injection hb with hb
        exact ⟨as, ih.mpr hl, by rw [hb]⟩

lemma mem_partWrites {h : Int} {ps : List Part} {w : Write Key Value} :
    w ∈ partWrites h ps
      ↔ ∃ i part, ps[i]? = some part
        ∧ w = put (.blockPart h i) (.part part) := by
  unfold partWrites
  rw [List.mem_map]
  constructor
  · rintro ⟨⟨part, i⟩, hmem, rfl⟩
    exact ⟨i, part, List.mem_zipIdx_iff_getElem?.mp hmem, rfl⟩
  rintro ⟨i, part, hpart, rfl⟩
  exact ⟨(part, i), List.mem_zipIdx_iff_getElem?.mpr hpart, rfl⟩

lemma saveBlockToBatch_ok {bs : BlockStore} {block : Block}
    {blockParts : PartSet} {seenCommit : Commit} {direct : List Batch}
    {batch : Batch}
    (h : bs.saveBlockToBatch enc block blockParts seenCommit
      = .ok (direct, batch)) :
    (0 < bs.base → block.height = bs.height + 1)
      ∧ block.height = seenCommit.height
      ∧ ∃ ps, (List.range blockParts.total).map
        (fun i => blockParts.parts.getD i none) = ps.map some
        ∧ direct.flatten ++ batch
          = partWrites block.height ps
            ++ blockWrites enc block blockParts seenCommit
        ∧ ∀ w ∈ direct.flatten, w ∈ partWrites block.height ps := by
  unfold saveBlockToBatch at h
  dsimp only at h
  split at h
  · cases h
  next hcontiguous =>
  split at h
  · cases h
  split at h
  · cases h
  next hheight =>
  split at h
  · cases h
  next ps hps =>
  refine ⟨fun hbase => ?_, not_not.mp hheight, ps, present_eq_some.mp hps, ?_⟩
  · by_contra hne
    exact hcontiguous ⟨hbase, hne⟩
  split at h
  · cases h
    exact ⟨rfl, nofun⟩
  cases h
  have hflat : (List.map (fun w => [w]) (partWrites block.height ps)).flatten
      = partWrites block.height ps := by
    exact List.flatMap_singleton' _
  rw [hflat]
  exact ⟨rfl, fun w hw => hw⟩

lemma saveBatch_db (bs : BlockStore) (height : Int) (direct : List Batch)
    (batch : Batch) :
    ∃ base, (bs.saveBatch height direct batch).2.db
      = bs.db.write (direct.flatten ++ batch
        ++ [put .blockStore (.state base height)]) := by
  refine ⟨if bs.base = 0 then height else bs.base, ?_⟩
  unfold saveBatch
  simp only
  rw [writeAll_eq_write, List.flatten_append, List.flatten_singleton, withState, List.append_assoc]

-- ==== the commits

section Commits

variable {bs bs' : BlockStore} {block : Block} {blockParts : PartSet} {writes : List Batch}

variable {seenCommit : Commit}

/-- The commits among what saving a block writes are the seen commit and what
is in `ext`. -/
lemma commit_of_mem_saveWrites {ps : List Part} {ext : Batch} {v : Value}
    {w : Write Key Value} (hext : ∀ w ∈ ext, w.key = .extCommit block.height)
    (hw : w ∈ partWrites block.height ps
      ++ blockWrites enc block blockParts seenCommit ++ ext
      ++ [put .blockStore v]) :
    (∀ h, w.key = .extCommit h → w ∈ ext)
      ∧ ∀ h, w.key = .seenCommit h →
        h = block.height ∧ w.value = some (.commit seenCommit) := by
  simp only [List.mem_append, List.mem_singleton] at hw
  rcases hw with ((hw | hw) | hw) | rfl
  · obtain ⟨i, part, -, rfl⟩ := mem_partWrites.mp hw
    exact ⟨nofun, nofun⟩
  · unfold blockWrites at hw
    simp only [List.mem_cons, List.not_mem_nil, or_false] at hw
    rcases hw with rfl | rfl | rfl | rfl
    case inr.inr.inr =>
      refine ⟨nofun, fun h hkey => ?_⟩
      cases hkey
      exact ⟨rfl, rfl⟩
    all_goals exact ⟨nofun, nofun⟩
  · refine ⟨fun _ _ => hw, fun h hkey => ?_⟩
    rw [hext w hw] at hkey
    cases hkey
  exact ⟨nofun, nofun⟩

/-- Saving stores the seen commit, and the extended commit if there is one,
and changes no commit of another height. -/
lemma saveBatch_commits {direct : List Batch} {batch ext : Batch}
    (hsave : bs.saveBlockToBatch enc block blockParts seenCommit
      = .ok (direct, batch))
    (hext : ∀ w ∈ ext, w.key = .extCommit block.height)
    (hbs' : bs' = (bs.saveBatch block.height direct (batch ++ ext)).2) :
    (seenCommit.height = block.height
      ∧ bs'.loadSeenCommit block.height = some seenCommit
      ∧ ∀ h, h ≠ block.height →
        bs'.loadSeenCommit h = bs.loadSeenCommit h
          ∧ bs'.loadBlockExtendedCommit h = bs.loadBlockExtendedCommit h)
      ∧ ∀ ec, ext = [put (.extCommit block.height) (.extCommit ec)] →
        bs'.loadBlockExtendedCommit block.height = some ec := by
  obtain ⟨-, hheight, ps, -, hflat, -⟩ := saveBlockToBatch_ok hsave
  obtain ⟨base, hdb⟩ := saveBatch_db bs block.height direct (batch ++ ext)
  rw [← hbs', ← List.append_assoc, hflat] at hdb
  unfold loadSeenCommit loadBlockExtendedCommit
  rw [hdb]
  refine ⟨⟨hheight.symm, ?_, fun h hne => ⟨?_, ?_⟩⟩, ?_⟩
  · rw [write_of_agree (v := some (.commit seenCommit))]
    · refine ⟨put (.seenCommit block.height) (.commit seenCommit), ?_, rfl⟩
      apply List.mem_append_left
      apply List.mem_append_left
      apply List.mem_append_right
      unfold blockWrites
      simp
    intro w hw hkey
    exact ((commit_of_mem_saveWrites hext hw).2 _ hkey).2
  · rw [write_of_ne]
    intro w hw hkey
    exact hne ((commit_of_mem_saveWrites hext hw).2 _ hkey).1
  · rw [write_of_ne]
    intro w hw hkey
    have := hext w ((commit_of_mem_saveWrites hext hw).1 _ hkey)
    rw [hkey] at this
    exact hne (Key.extCommit.inj this)
  rintro ec rfl
  rw [write_of_agree (v := some (.extCommit ec))]
  · refine ⟨put (.extCommit block.height) (.extCommit ec), ?_, rfl⟩
    apply List.mem_append_left
    exact List.mem_append_right _ (List.mem_singleton_self _)
  intro w hw hkey
  rw [List.mem_singleton.mp ((commit_of_mem_saveWrites hext hw).1 _ hkey)]
  rfl

lemma saveBlock_commits
    (h : bs.saveBlock enc block blockParts seenCommit = .ok (writes, bs')) :
    seenCommit.height = block.height
      ∧ bs'.loadSeenCommit block.height = some seenCommit
      ∧ ∀ h, h ≠ block.height →
        bs'.loadSeenCommit h = bs.loadSeenCommit h
          ∧ bs'.loadBlockExtendedCommit h = bs.loadBlockExtendedCommit h := by
  unfold saveBlock at h
  split at h
  · cases h
  next r hsave =>
  refine (saveBatch_commits hsave (List.forall_mem_nil _) ?_).1
  rw [List.append_nil, Except.ok.inj h]

lemma saveBlockWithExtendedCommit_commits {ec : ExtendedCommit}
    (h : bs.saveBlockWithExtendedCommit enc block blockParts ec
      = .ok (writes, bs')) :
    ec.height = block.height
      ∧ bs'.loadBlockExtendedCommit block.height = some ec
      ∧ bs'.loadSeenCommit block.height = some ec.toCommit
      ∧ ∀ h, h ≠ block.height →
        bs'.loadSeenCommit h = bs.loadSeenCommit h
          ∧ bs'.loadBlockExtendedCommit h = bs.loadBlockExtendedCommit h := by
  unfold saveBlockWithExtendedCommit at h
  split at h
  · cases h
  split at h
  · cases h
  next r hsave =>
  have hext : ∀ w ∈ [put (.extCommit block.height) (.extCommit ec)],
      w.key = .extCommit block.height := List.forall_mem_singleton.mpr rfl
  obtain ⟨⟨hheight, hrest⟩, hec⟩ := saveBatch_commits hsave hext
    (congrArg Prod.snd (Except.ok.inj h)).symm
  exact ⟨hheight, hec ec rfl, hrest⟩

end Commits

end HetuEngine.Blocks
