/-
What the block store keeps across crashes.

After every operation, and after a crash anywhere in one, the heights from
`Base` to `Height` are to load as they were saved. They do unless a crash
comes between an intermediate flush of `PruneBlocks` and the next write: such
a flush deletes the blocks up to a height `h` and writes `h` as the new base,
where `h + 1` is the first block there still is.

# How the proof goes

A write is about one height (`Key.About`): that of the meta or the part it
concerns, or of a block with the hash whose index it concerns. Writes about
other heights leave what is held for a height (`Holds.write`). Saving writes
about one height that is not in the range before, pruning and deleting about
heights that are not in the range afterwards, but for that one flush.

The parts given to `SaveBlock` are those of the block, as its contract says,
and no two blocks of different heights given to it have one hash.
-/
import HetuEngine.Blocks.Proofs.Save
import HetuEngine.Lib.Along

namespace HetuEngine.Blocks

open Lib Comet EvidencePool BlockStore Function Database

variable {enc : BlockEncoding} {U : Block → Prop}

-- ==== what is to hold

/-- `SaveBlock`'s contract, for the block and the parts. -/
structure Saved.Given (enc : BlockEncoding) (s : Saved) : Prop where
  height_pos : 0 < s.block.height
  parts_length : s.parts.parts.length = s.parts.total
  unmarshal : enc.unmarshal s.parts.bytes = some s.block

/-- Every height in the range loads as it was saved: its meta, its block and
the index from its hash. -/
def BlockStore.Loads (enc : BlockEncoding) (bs : BlockStore) (saved : Int → Option Saved) : Prop :=
  ∀ h, 0 < h → bs.base ≤ h → h ≤ bs.height → ∃ s, saved h = some s
      ∧ bs.loadBlockMeta h = some (newBlockMeta enc s.block s.parts)
      ∧ bs.loadBlock enc h = some s.block ∧ bs.db (.blockHash (s.block.hash enc)) = some (.height h)

/-- The database holds a block for a height. -/
structure Holds (enc : BlockEncoding) (db : DB) (h : Int) (s : Saved) :
    Prop where
  blockMeta : db (.blockMeta h) = some (.blockMeta (newBlockMeta enc s.block s.parts))
  parts : ∃ ps : List Part, s.parts.parts = ps.map some
    ∧ ∀ i part, ps[i]? = some part → db (.blockPart h i) = some (.part part)
  blockHash : db (.blockHash (s.block.hash enc)) = some (.height h)

variable {h : Int} {db : DB} {m : BlockMeta} {bs : BlockStore} {s : Saved}

lemma Holds.loadBlock (hold : Holds enc bs.db h s) (hgiven : s.Given enc) :
    bs.loadBlockMeta h = some (newBlockMeta enc s.block s.parts)
      ∧ bs.loadBlock enc h = some s.block := by
  have hmeta : bs.loadBlockMeta h = some (newBlockMeta enc s.block s.parts) := by
    unfold loadBlockMeta
    rw [hold.blockMeta]
  refine ⟨hmeta, ?_⟩
  obtain ⟨ps, hps, hload⟩ := hold.parts
  have hlength : ps.length = s.parts.total := by rw [← hgiven.parts_length, hps, List.length_map]
  have hparts : (List.range s.parts.total).map (bs.loadBlockPart h) = ps.map some := by
    rw [← hlength]
    apply List.ext_getElem?
    intro i
    rw [List.getElem?_map, List.getElem?_map]
    by_cases hi : i < ps.length
    · have hdb := hload i ps[i] (List.getElem?_eq_getElem hi)
      rw [List.getElem?_range hi, List.getElem?_eq_getElem hi]
      simp [loadBlockPart, hdb]
    rw [List.getElem?_eq_none (by simpa using hi), List.getElem?_eq_none (by omega)]
    rfl
  unfold BlockStore.loadBlock
  rw [hmeta]
  simp only [newBlockMeta, PartSet.header]
  rw [hparts, present_eq_some.mpr rfl]
  have hbytes : s.parts.bytes = ps.flatMap Part.bytes := by
    unfold PartSet.bytes
    rw [hps, List.map_map]
    rfl
  simp only
  rw [← hbytes]
  exact hgiven.unmarshal

-- ==== writes about a height

/-- No two blocks of different heights have one hash. -/
def Distinct (enc : BlockEncoding) (U : Block → Prop) : Prop :=
  ∀ b b', U b → U b' → b.hash enc = b'.hash enc → b.height = b'.height

/-- What a key is about: keys of commits and of the bounds are about
anything. -/
def Key.About (enc : BlockEncoding) (U : Block → Prop) (h : Int) : Key → Prop
  | .blockMeta h' => h' = h
  | .blockPart h' _ => h' = h
  | .blockHash hash => ∃ b, U b ∧ b.height = h ∧ b.hash enc = hash
  | _ => True

/-- What is held for a height is left by writes about others. -/
lemma Holds.write {W : Batch} (hd : Distinct enc U) (hold : Holds enc db h s)
    (hU : U s.block) (hh : s.block.height = h)
    (hW : ∀ w ∈ W, ∃ h', h' ≠ h ∧ w.key.About enc U h') :
    Holds enc (db.write W) h s := by
  have hkeep : ∀ key, (∀ h', key.About enc U h' → h' = h) → db.write W key = db key := by
    intro key honly
    refine write_of_ne fun w hw hkey => ?_
    obtain ⟨h', hne, habout⟩ := hW w hw
    rw [hkey] at habout
    exact hne (honly h' habout)
  refine ⟨?_, ?_, ?_⟩
  · rw [hkeep (.blockMeta h) fun _ => Eq.symm, hold.blockMeta]
  · obtain ⟨ps, hps, hload⟩ := hold.parts
    refine ⟨ps, hps, fun i part hpart => ?_⟩
    rw [hkeep (.blockPart h i) fun _ => Eq.symm, hload i part hpart]
  rw [hkeep, hold.blockHash]
  rintro h' ⟨b, hb, hbh, hhash⟩
  have := hd b s.block hb hU hhash
  omega

/-- A meta that was made of a block of a height. -/
def MetaOf (enc : BlockEncoding) (U : Block → Prop) (h : Int) (v : Value) :
    Prop :=
  ∃ b m, U b ∧ b.height = h ∧ v = .blockMeta m ∧ m.blockID.hash = b.hash enc

/-- All metas in the database were made of blocks of their heights. -/
def Metas (enc : BlockEncoding) (U : Block → Prop) (db : DB) : Prop :=
  ∀ h v, db (.blockMeta h) = some v → MetaOf enc U h v

lemma Metas.write {W : Batch} (hm : Metas enc U db)
    (hW : ∀ w ∈ W, ∀ h v, w.key = .blockMeta h → w.value = some v →
      MetaOf enc U h v) :
    Metas enc U (db.write W) := by
  induction W generalizing db with
  | nil => exact hm
  | cons w W ih =>
    refine ih ?_ fun w' hw' => hW w' (List.mem_cons_of_mem _ hw')
    intro h v hv
    unfold Database.put at hv
    split at hv
    next hkey => exact hW w (List.mem_cons_self ..) h v hkey hv
    · exact hm h v hv

-- ==== the bounds

/-- After a batch with the bounds, the store opens with them. -/
lemma newBlockStore_withState {batch : Batch} {base height : Int}
    (hbase : 0 < height → base ≠ 0) :
    newBlockStore (db.write (withState batch base height))
      = ⟨base, height, db.write (withState batch base height)⟩ := by
  have hstate : db.write (withState batch base height) .blockStore = some (.state base height) := by
    unfold withState
    rw [write_append]
    rfl
  unfold newBlockStore loadBlockStoreState
  rw [hstate]
  simp only
  rw [if_neg fun h => hbase h.1 h.2]

/-- A store opens with the bounds of another if no write concerns them. -/
lemma newBlockStore_write {W : Batch} (hW : ∀ w ∈ W, w.key ≠ .blockStore) :
    newBlockStore (db.write W)
      = ⟨(newBlockStore db).base, (newBlockStore db).height, db.write W⟩ := by
  have hstate : db.write W .blockStore = db .blockStore := write_of_ne hW
  unfold newBlockStore loadBlockStoreState
  rw [hstate]

/-- What holds of a session before and after every step but one kind: the
bounds in memory are those in the database, every height in the range is
held as it was saved, and the metas are those of blocks. -/
structure Session.Sound (enc : BlockEncoding) (U : Block → Prop) (s : Session) : Prop where
  opened : newBlockStore s.store.db = s.store
  bounds : s.store.base = 0 ∧ s.store.height ≤ 0 ∨ 0 < s.store.base
  holds : ∀ h, 0 < h → s.store.base ≤ h → h ≤ s.store.height → ∃ saved, s.saved h = some saved
    ∧ saved.Given enc ∧ U saved.block ∧ saved.block.height = h ∧ Holds enc s.store.db h saved
  metas : Metas enc U s.store.db

namespace Session

lemma Sound.start : Sound enc U start where
  opened := rfl
  bounds := .inl ⟨rfl, le_refl _⟩
  holds := by
    intro h hpos hbase hheight
    have : h ≤ 0 := hheight
    omega
  metas := nofun

lemma Sound.loads {s : Session} (hs : Sound enc U s) :
    (newBlockStore s.store.db).Loads enc s.saved := by
  rw [hs.opened]
  intro h hpos hbase hheight
  obtain ⟨saved, hsaved, hgiven, -, -, hold⟩ := hs.holds h hpos hbase hheight
  have hload := hold.loadBlock hgiven
  exact ⟨saved, hsaved, hload.1, hload.2, hold.blockHash⟩

end Session

-- ==== saving

/-- The writes of saving a block, in their order. -/
def SaveWrites (enc : BlockEncoding) (s : Saved) (W : Batch) : Prop :=
  ∃ ps seenCommit ext, (List.range s.parts.total).map (fun i => s.parts.parts.getD i none) = ps.map
      some ∧ W = BlockStore.partWrites s.block.height ps ++ BlockStore.blockWrites
      enc s.block s.parts seenCommit ++ ext ∧ ∀ w ∈ ext, ∃ v, w = put (.extCommit s.block.height) v

variable {writes : List Batch}

lemma saveBlockToBatch_writes {seenCommit : Commit} {direct : List Batch}
    {batch : Batch}
    (h : bs.saveBlockToBatch enc s.block s.parts seenCommit
      = .ok (direct, batch))
    {ext : Batch}
    (hext : ∀ w ∈ ext, ∃ v, w = put (.extCommit s.block.height) v) :
    (0 < bs.base → s.block.height = bs.height + 1)
      ∧ SaveWrites enc s (direct.flatten ++ (batch ++ ext))
      ∧ ∀ w ∈ direct.flatten, ∃ i v, w = put (.blockPart s.block.height i)
        v := by
  obtain ⟨hcontiguous, -, ps, hps, hflat, hdirect⟩ := saveBlockToBatch_ok h
  refine ⟨hcontiguous, ⟨ps, seenCommit, ext, hps, ?_, hext⟩, fun w hw => ?_⟩
  · rw [← List.append_assoc, hflat]
  obtain ⟨i, part, -, rfl⟩ := mem_partWrites.mp (hdirect w hw)
  exact ⟨i, _, rfl⟩

lemma perform_save {bs' : BlockStore} {op : Op} (hsaves : op.saves = some s)
    (h : bs.perform enc op = some (writes, bs')) :
    ∃ direct batch, ((0 < bs.base → s.block.height = bs.height + 1)
      ∧ SaveWrites enc s (direct.flatten ++ batch)
      ∧ ∀ w ∈ direct.flatten, ∃ i v, w = put (.blockPart s.block.height i) v)
      ∧ (writes, bs') = bs.saveBatch s.block.height direct batch := by
  cases op with
  | pruneBlocks height state => cases hsaves
  | deleteLatestBlock => cases hsaves
  | saveBlock block blockParts seenCommit =>
    cases hsaves
    unfold perform saveBlock at h
    dsimp only at h
    split at h
    · cases h
    next direct batch hsave =>
    refine ⟨direct, batch ++ [], saveBlockToBatch_writes hsave nofun, ?_⟩
    rw [List.append_nil]
    exact (Option.some.inj h).symm
  | saveBlockWithExtendedCommit block blockParts seenExtendedCommit =>
    cases hsaves
    unfold perform saveBlockWithExtendedCommit at h
    dsimp only at h
    split at h
    · cases h
    split at h
    · cases h
    next direct batch hsave =>
    exact ⟨direct, _, saveBlockToBatch_writes hsave fun w hw =>
      ⟨_, List.mem_singleton.mp hw⟩, (Option.some.inj h).symm⟩

/-- One of the writes of saving a block with the parts `ps`. -/
inductive SaveWrite (enc : BlockEncoding) (s : Saved) (ps : List Part) :
    Write Key Value → Prop
  | part (i : Nat) (part : Part) : ps[i]? = some part →
    SaveWrite enc s ps (put (.blockPart s.block.height i) (.part part))
  | blockMeta : SaveWrite enc s ps (put (.blockMeta s.block.height)
    (.blockMeta (newBlockMeta enc s.block s.parts)))
  | blockHash : SaveWrite enc s ps
    (put (.blockHash (s.block.hash enc)) (.height s.block.height))
  | blockCommit (v : Value) :
    SaveWrite enc s ps (put (.blockCommit (s.block.height - 1)) v)
  | seenCommit (v : Value) :
    SaveWrite enc s ps (put (.seenCommit s.block.height) v)
  | extCommit (v : Value) :
    SaveWrite enc s ps (put (.extCommit s.block.height) v)

namespace SaveWrites

variable {s : Saved} {W : Batch}

section

variable (hW : SaveWrites enc s W)

include hW

lemma cases (hgiven : s.Given enc) :
    ∃ ps : List Part, s.parts.parts = ps.map some
      ∧ (∀ i part, ps[i]? = some part →
        put (.blockPart s.block.height i) (.part part) ∈ W)
      ∧ put (.blockMeta s.block.height)
        (.blockMeta (newBlockMeta enc s.block s.parts)) ∈ W
      ∧ put (.blockHash (s.block.hash enc)) (.height s.block.height) ∈ W
      ∧ ∀ w ∈ W, SaveWrite enc s ps w := by
  obtain ⟨ps, seenCommit, ext, hps, rfl, hext⟩ := hW
  have hparts : s.parts.parts = ps.map some := by
    rw [← hps, ← hgiven.parts_length]
    apply List.ext_getElem?
    intro i
    rw [List.getElem?_map]
    by_cases hi : i < s.parts.parts.length
    · rw [List.getElem?_range hi]
      simp [hi]
    rw [List.getElem?_eq_none (Nat.le_of_not_lt hi), List.getElem?_eq_none
      (by rw [List.length_range]; omega)]
    rfl
  refine ⟨ps, hparts, ?_, ?_, ?_, ?_⟩
  · intro i part hpart
    exact List.mem_append_left _ (List.mem_append_left _ (mem_partWrites.mpr ⟨i, part, hpart, rfl⟩))
  · exact List.mem_append_left _ (List.mem_append_right _ (List.mem_cons_self ..))
  · exact List.mem_append_left _ (List.mem_append_right
      _ (List.mem_cons_of_mem _ (List.mem_cons_self ..)))
  intro w hw
  rcases List.mem_append.mp hw with hw | hw
  · rcases List.mem_append.mp hw with hw | hw
    · obtain ⟨i, part, hpart, rfl⟩ := mem_partWrites.mp hw
      exact .part i part hpart
    unfold blockWrites at hw
    simp only [List.mem_cons, List.not_mem_nil, or_false] at hw
    rcases hw with rfl | rfl | rfl | rfl
    · exact .blockMeta
    · exact .blockHash
    · exact .blockCommit _
    exact .seenCommit _
  obtain ⟨v, rfl⟩ := hext w hw
  exact .extCommit v

lemma about (hgiven : s.Given enc) (hU : U s.block) :
    ∀ w ∈ W, w.key.About enc U s.block.height := by
  obtain ⟨ps, -, -, -, -, hcases⟩ := hW.cases hgiven
  intro w hw
  cases hcases w hw with
  | blockHash => exact ⟨s.block, hU, rfl, rfl⟩
  | _ => trivial

lemma metaOf (hgiven : s.Given enc) (hU : U s.block) :
    ∀ w ∈ W, ∀ h v, w.key = .blockMeta h → w.value = some v →
      MetaOf enc U h v := by
  obtain ⟨ps, -, -, -, -, hcases⟩ := hW.cases hgiven
  intro w hw h v hkey hv
  cases hcases w hw with
  | blockMeta =>
    cases hkey
    cases hv
    exact ⟨s.block, _, hU, rfl, rfl, rfl⟩
  | _ => cases hkey

lemma holds (hgiven : s.Given enc) :
    Holds enc (db.write W) s.block.height s := by
  obtain ⟨ps, hps, hpart, hmeta, hhash, hcases⟩ := hW.cases hgiven
  refine ⟨?_, ⟨ps, hps, fun i part hi => ?_⟩, ?_⟩
  · refine write_of_agree ⟨_, hmeta, rfl⟩ fun w hw hkey => ?_
    cases hcases w hw with
    | blockMeta => rfl
    | _ => cases hkey
  · refine write_of_agree ⟨_, hpart i part hi, rfl⟩ fun w hw hkey => ?_
    cases hcases w hw with
    | part j part' hj =>
      cases hkey
      rw [hi] at hj
      cases hj
      rfl
    | _ => cases hkey
  refine write_of_agree ⟨_, hhash, rfl⟩ fun w hw hkey => ?_
  cases hcases w hw with
  | blockHash => rfl
  | _ => cases hkey

end

end SaveWrites

namespace Session.Sound

variable {s : Session}

section

variable (hd : Distinct enc U) (hs : Sound enc U s)

include hd hs

/-- Writes about a height that is not in the range afterwards, with bounds
that are not wider, leave a session sound. -/
lemma shrink {W : Batch} {base height : Int}
    (hopened : newBlockStore (s.store.db.write W)
      = ⟨base, height, s.store.db.write W⟩)
    (hbounds : base = 0 ∧ height ≤ 0 ∨ 0 < base)
    (hbase : s.store.base ≤ base) (hheight : height ≤ s.store.height)
    (habout : ∀ w ∈ W, ∃ h', ¬(base ≤ h' ∧ h' ≤ height) ∧ w.key.About enc U h')
    (hmetas : ∀ w ∈ W, ∀ h v, w.key = .blockMeta h → w.value ≠ some v) :
    Sound enc U ⟨⟨base, height, s.store.db.write W⟩, s.saved⟩ where
  opened := hopened
  bounds := hbounds
  holds := by
    intro h hpos hge hle
    obtain ⟨saved, hsaved, hgiven, hU, hh, hold⟩ :=
      hs.holds h hpos (le_trans hbase hge) (le_trans hle hheight)
    refine ⟨saved, hsaved, hgiven, hU, hh, hold.write hd hU hh ?_⟩
    intro w hw
    obtain ⟨h', hout, hkey⟩ := habout w hw
    exact ⟨h', fun heq => hout (heq ▸ ⟨hge, hle⟩), hkey⟩
  metas := hs.metas.write fun w hw h v hkey hv => absurd hv (hmetas w hw h v hkey)

lemma writeParts {W : Batch} {height : Int}
    (hout : ¬(s.store.base ≤ height ∧ height ≤ s.store.height))
    (hW : ∀ w ∈ W, ∃ i v, w = put (.blockPart height i) v) :
    Sound enc U ⟨newBlockStore (s.store.db.write W), s.saved⟩ := by
  have hopened : newBlockStore (s.store.db.write W)
      = ⟨s.store.base, s.store.height, s.store.db.write W⟩ := by
    rw [newBlockStore_write, hs.opened]
    intro w hw
    obtain ⟨i, v, rfl⟩ := hW w hw
    exact nofun
  rw [hopened]
  refine hs.shrink hd hopened hs.bounds (le_refl _) (le_refl _) ?_ ?_
  · intro w hw
    obtain ⟨i, v, rfl⟩ := hW w hw
    exact ⟨height, hout, rfl⟩
  intro w hw h v hkey
  obtain ⟨i, v', rfl⟩ := hW w hw
  cases hkey

variable {saved : Saved}

lemma writeBlock {W : Batch} {base : Int} (hW : SaveWrites enc saved W) (hgiven : saved.Given enc)
    (hU : U saved.block)
    (hbase : base = if s.store.base = 0 then saved.block.height else s.store.base)
    (hcontiguous : 0 < s.store.base → saved.block.height = s.store.height + 1) :
    Sound enc U ⟨⟨base, saved.block.height,
      s.store.db.write (withState W base saved.block.height)⟩,
    Function.update s.saved saved.block.height (some saved)⟩ := by
  have hpos := hgiven.height_pos
  have hbasepos : 0 < base := by
    rw [hbase]
    rcases hs.bounds with h | h
    · rw [if_pos h.1]
      exact hpos
    rw [if_neg (by omega)]
    exact h
  refine ⟨newBlockStore_withState fun _ => by omega, .inr hbasepos, ?_, ?_⟩
  · intro h hhpos hge hle
    dsimp only at hge hle ⊢
    by_cases hh : h = saved.block.height
    · subst hh
      refine ⟨saved, update_self .., hgiven, hU, rfl, ?_⟩
      unfold withState
      rw [write_append]
      refine (hW.holds hgiven).write (U := fun b => b = saved.block)
        (fun b b' hb hb' _ => by rw [hb, hb']) rfl rfl ?_
      intro w hw
      rw [List.mem_singleton.mp hw]
      exact ⟨saved.block.height + 1, by omega, trivial⟩
    have hrange : s.store.base ≤ h ∧ h ≤ s.store.height := by
      rcases hs.bounds with hzero | hold
      · rw [if_pos hzero.1] at hbase
        omega
      have := hcontiguous hold
      omega
    obtain ⟨saved', hsaved', hgiven', hU', hh', hold⟩ := hs.holds h hhpos hrange.1 hrange.2
    refine ⟨saved', ?_, hgiven', hU', hh', hold.write hd hU' hh' ?_⟩
    · rw [update_of_ne hh]
      exact hsaved'
    intro w hw
    refine ⟨saved.block.height, fun heq => hh heq.symm, ?_⟩
    rcases List.mem_append.mp hw with hw | hw
    · exact hW.about hgiven hU w hw
    rw [List.mem_singleton.mp hw]
    trivial
  apply hs.metas.write
  intro w hw h v hkey hv
  rcases List.mem_append.mp hw with hw | hw
  · exact hW.metaOf hgiven hU w hw h v hkey hv
  rw [List.mem_singleton.mp hw] at hkey
  cases hkey

lemma save {c : Step} (hsaves : c.op.saves = some saved)
    (hgiven : saved.Given enc) (hU : U saved.block) :
    Sound enc U (s.step enc c) := by
  unfold step
  cases hperform : s.store.perform enc c.op with
  | none => exact hs
  | some r =>
  obtain ⟨writes, store⟩ := r
  obtain ⟨direct, batch, ⟨hcontiguous, hW, hdirect⟩, hsave⟩ := perform_save hsaves hperform
  injection hsave with hwrites hstore
  have hremember : s.remember c.op = update s.saved saved.block.height (some saved) := by
    unfold remember
    rw [hsaves]
  have hdb : store.db = s.store.db.writeAll writes := by rw [hstore, hwrites]
  have hdone : Sound enc U ⟨store, s.remember c.op⟩ := by
    have := hs.writeBlock hd hW hgiven hU rfl hcontiguous
    rw [withState, List.append_assoc, write_append, ← writeAll_eq_write] at this
    rw [hstore, hremember]
    rw [writeAll_concat]
    exact this
  simp only
  cases hcrash : c.crash with
  | none => exact hdone
  | some k =>
    simp only
    by_cases hk : writes.length ≤ k
    · rw [if_pos hk, List.take_of_length_le hk, ← hdb]
      rw [show newBlockStore store.db = store from hdone.opened]
      exact hdone
    -- at most the parts of a large block have been written
    rw [if_neg hk]
    have htake : writes.take k = direct.take k := by
      rw [hwrites, List.take_append_of_le_length]
      rw [hwrites, List.length_append, List.length_singleton] at hk
      omega
    rw [htake, writeAll_eq_write]
    have hout : ¬(s.store.base ≤ saved.block.height ∧ saved.block.height ≤ s.store.height) := by
      have hpos := hgiven.height_pos
      rcases hs.bounds with hzero | hold
      · omega
      have := hcontiguous hold
      omega
    refine hs.writeParts hd hout ?_
    intro w hw
    obtain ⟨b, hb, hwb⟩ := List.mem_flatten.mp hw
    exact hdirect w (List.mem_flatten.mpr ⟨b, List.mem_of_mem_take hb, hwb⟩)

end

end Session.Sound

-- ==== deleting

lemma loadBlockMeta_eq_some : bs.loadBlockMeta h = some m ↔
    bs.db (.blockMeta h) = some (.blockMeta m) := by
  unfold loadBlockMeta
  constructor
  · intro hm
    split at hm
    next hdb => rw [hdb, Option.some.inj hm]
    · cases hm
  intro hdb
  rw [hdb]

lemma Metas.about (hm : Metas enc U bs.db)
    (hload : bs.loadBlockMeta h = some m) :
    Key.About enc U h (.blockHash m.blockID.hash) := by
  obtain ⟨b, m', hb, hh, hv, hhash⟩ := hm h _ (loadBlockMeta_eq_some.mp hload)
  cases hv
  exact ⟨b, hb, hh, hhash.symm⟩

/-- A write that deletes something about a height. -/
def Deletes (enc : BlockEncoding) (U : Block → Prop) (h : Int) (w : Write Key Value) : Prop :=
  w.value = none ∧ w.key.About enc U h

lemma deletes_deletions {needed : Bool} (hm : Metas enc U bs.db)
    (hload : bs.loadBlockMeta h = some m) :
    ∀ w ∈ deletions h m needed, Deletes enc U h w := by
  intro w hw
  unfold deletions at hw
  simp only [List.mem_append, List.mem_singleton, List.mem_map] at hw
  rcases hw with (((hw | rfl) | hw) | rfl) | ⟨i, -, rfl⟩
  · cases needed with
    | true => cases hw
    | false =>
      rw [List.mem_singleton.mp hw]
      exact ⟨rfl, rfl⟩
  · exact ⟨rfl, hm.about hload⟩
  · cases needed with
    | true => cases hw
    | false =>
      rw [List.mem_singleton.mp hw]
      exact ⟨rfl, trivial⟩
  · exact ⟨rfl, trivial⟩
  exact ⟨rfl, rfl⟩

lemma Session.Sound.deleteLatestBlock {s : Session} (hd : Distinct enc U)
    (hs : Sound enc U s) :
    Sound enc U ⟨s.store.deleteLatestBlock.2, s.saved⟩ := by
  have hdeletes : ∀ w ∈ s.store.deleteLatestBlock.1.flatten, Deletes enc U s.store.height w
        ∨ w = put .blockStore (.state s.store.base (s.store.height - 1)) := by
    intro w hw
    unfold BlockStore.deleteLatestBlock BlockStore.withState at hw
    simp only [List.flatten_singleton, List.mem_append, List.mem_cons,
      List.not_mem_nil, or_false] at hw
    rcases hw with (hw | rfl | rfl | rfl) | rfl
    · split at hw
      · cases hw
      next m hload =>
      rcases List.mem_cons.mp hw with rfl | hw
      · exact .inl ⟨rfl, hs.metas.about hload⟩
      obtain ⟨i, -, rfl⟩ := List.mem_map.mp hw
      exact .inl ⟨rfl, rfl⟩
    · exact .inl ⟨rfl, trivial⟩
    · exact .inl ⟨rfl, trivial⟩
    · exact .inl ⟨rfl, rfl⟩
    exact .inr rfl
  have hbounds : s.store.base = 0 ∧ s.store.height - 1 ≤ 0 ∨ 0 < s.store.base := by
    rcases hs.bounds with h | h
    · exact .inl ⟨h.1, by omega⟩
    exact .inr h
  have hstore : s.store.deleteLatestBlock.2 = ⟨s.store.base, s.store.height - 1,
          s.store.db.write s.store.deleteLatestBlock.1.flatten⟩ := by
    unfold BlockStore.deleteLatestBlock
    simp only
    rw [writeAll_eq_write]
  rw [hstore]
  refine hs.shrink hd ?_ hbounds (le_refl _) (by omega) ?_ ?_
  · unfold BlockStore.deleteLatestBlock
    rw [List.flatten_singleton]
    exact newBlockStore_withState (by omega)
  · intro w hw
    refine ⟨s.store.height, by omega, ?_⟩
    rcases hdeletes w hw with h | rfl
    · exact h.2
    trivial
  intro w hw h v hkey
  rcases hdeletes w hw with h | rfl
  · intro hsome
    rw [h.1] at hsome
    cases hsome
  cases hkey

-- ==== pruning

lemma flush_writes (p : BlockStore.Pruning) (base height : Int) :
    (p.flush base height).writes
      = p.writes ++ [withState p.batch base height] := rfl

lemma add_writes (p : BlockStore.Pruning) (h : Int) (m : BlockMeta)
    (evidencePoint : Int) : (p.add h m evidencePoint).writes = p.writes := rfl

/-- What the loop of `PruneBlocks` has done after `n` heights. -/
structure Pruned (enc : BlockEncoding) (U : Block → Prop) (bs : BlockStore)
    (n : Nat) (p : BlockStore.Pruning) : Prop where
  db : p.db = bs.db.writeAll p.writes
  batch : ∀ w ∈ p.batch, ∃ i < n, Deletes enc U (bs.base + i) w
  writes : ∀ w ∈ p.writes.flatten, (∃ i < n, Deletes enc U (bs.base + i) w)
      ∨ ∃ base height, w = put .blockStore (.state base height)
  /-- Each flush is made after a block has been deleted, with the height of
  that block as the base. -/
  flushed : ∀ k, 0 < k → k ≤ p.writes.length → ∃ i < n, ∃ m, bs.loadBlockMeta (bs.base + i) = some m
    ∧ delete (.blockHash m.blockID.hash) ∈ (p.writes.take k).flatten
    ∧ bs.db.writeAll (p.writes.take k) .blockStore = some (.state (bs.base + i) bs.height)
    ∧ ((∀ j < n, (bs.loadBlockMeta (bs.base + j)).isSome) → i + 1 = k * BlockStore.blocksPerFlush)
  count : (∀ i < n, (bs.loadBlockMeta (bs.base + i)).isSome) →
    p.pruned = n ∧ p.writes.length = n / BlockStore.blocksPerFlush

namespace Pruned

variable {bs : BlockStore} {n : Nat} {p : BlockStore.Pruning}

lemma zero (bs : BlockStore) (height : Int) :
    Pruned enc U bs 0 ⟨bs.db, [], [], 0, height⟩ where
  db := rfl
  batch := nofun
  writes := nofun
  flushed := fun _ hpos hle => absurd hle (Nat.not_le_of_lt hpos)
  count := fun _ => ⟨rfl, rfl⟩

section

variable (hp : Pruned enc U bs n p)

include hp

/-- The heights that are still to come have been left alone. -/
lemma loadBlockMeta (latest : Int) :
    loadBlockMeta ⟨bs.base + n, latest, p.db⟩ (bs.base + n)
      = bs.loadBlockMeta (bs.base + n) := by
  have hdb : p.db (.blockMeta (bs.base + n)) = bs.db (.blockMeta (bs.base + n)) := by
    rw [hp.db, writeAll_eq_write]
    apply write_of_ne
    intro w hw hkey
    rcases hp.writes w hw with ⟨i, hi, -, habout⟩ | ⟨base, height, rfl⟩
    · rw [hkey] at habout
      have : bs.base + n = bs.base + i := habout
      omega
    cases hkey
  unfold BlockStore.loadBlockMeta
  simp only
  rw [hdb]

lemma writes_succ :
    ∀ w ∈ p.writes.flatten, (∃ i < n + 1, Deletes enc U (bs.base + i) w)
      ∨ ∃ base height, w = put .blockStore (.state base height) := by
  intro w hw
  rcases hp.writes w hw with ⟨i, hi, h⟩ | h
  · exact .inl ⟨i, by omega, h⟩
  exact .inr h

lemma skip (hnone : bs.loadBlockMeta (bs.base + n) = none) :
    Pruned enc U bs (n + 1) p where
  db := hp.db
  batch := by
    intro w hw
    obtain ⟨i, hi, h⟩ := hp.batch w hw
    exact ⟨i, by omega, h⟩
  writes := hp.writes_succ
  flushed := by
    intro k hpos hle
    obtain ⟨i, hi, m, hm, hdel, hstate, hi'⟩ := hp.flushed k hpos hle
    exact ⟨i, by omega, m, hm, hdel, hstate, fun hall => hi' fun j hj => hall j (by omega)⟩
  count := by
    intro hall
    have := hall n (Nat.lt_succ_self n)
    rw [hnone] at this
    cases this

end

variable {m : BlockMeta}

section

variable (hm : Metas enc U bs.db)

include hm

section

variable (hp : Pruned enc U bs n p)

include hp

section

variable (hload : bs.loadBlockMeta (bs.base + n) = some m) (evidencePoint : Int)

include hload evidencePoint

lemma add_batch :
    ∀ w ∈ (p.add (bs.base + n) m evidencePoint).batch, ∃ i < n + 1, Deletes enc
      U (bs.base + i) w := by
  intro w hw
  rcases List.mem_append.mp hw with hw | hw
  · obtain ⟨i, hi, h⟩ := hp.batch w hw
    exact ⟨i, by omega, h⟩
  exact ⟨n, by omega, deletes_deletions hm hload w hw⟩

lemma add (hflush : (p.pruned + 1) % blocksPerFlush ≠ 0) :
    Pruned enc U bs (n + 1) (p.add (bs.base + n) m evidencePoint) where
  db := hp.db
  batch := hp.add_batch hm hload evidencePoint
  writes := hp.writes_succ
  flushed := by
    intro k hpos hle
    obtain ⟨i, hi, m, hm, hdel, hstate, hi'⟩ := hp.flushed k hpos hle
    exact ⟨i, by omega, m, hm, hdel, hstate, fun hall => hi' fun j hj => hall j (by omega)⟩
  count := by
    intro hall
    obtain ⟨hpruned, hlength⟩ := hp.count fun i hi => hall i (by omega)
    have hsame : n / blocksPerFlush = (n + 1) / blocksPerFlush := by
      unfold blocksPerFlush at hflush ⊢
      omega
    exact ⟨congrArg (· + 1) hpruned, hlength.trans hsame⟩

lemma flush (hflush : (p.pruned + 1) % blocksPerFlush = 0) :
    Pruned enc U bs (n + 1) ((p.add (bs.base + n) m evidencePoint).flush
      (bs.base + n) bs.height) where
  db := by
    rw [flush_writes, add_writes, writeAll_concat, ← hp.db]
    rfl
  batch := nofun
  writes := by
    intro w hw
    rw [flush_writes, add_writes, List.flatten_append, List.flatten_singleton] at hw
    rcases List.mem_append.mp hw with hw | hw
    · exact hp.writes_succ w hw
    rcases List.mem_append.mp hw with hw | hw
    · exact .inl (hp.add_batch hm hload evidencePoint w hw)
    exact .inr ⟨_, _, List.mem_singleton.mp hw⟩
  flushed := by
    rw [flush_writes, add_writes]
    intro k hpos hle
    rw [List.length_append, List.length_singleton] at hle
    by_cases hk : k ≤ p.writes.length
    · obtain ⟨i, hi, m, hm, hdel, hstate, hi'⟩ := hp.flushed k hpos hk
      rw [List.take_append_of_le_length hk]
      exact ⟨i, by omega, m, hm, hdel, hstate, fun hall => hi' fun j hj => hall j (by omega)⟩
    rw [List.take_of_length_le (by rw [List.length_append, List.length_singleton]; omega)]
    refine ⟨n, by omega, m, hload, ?_, ?_, ?_⟩
    · rw [List.flatten_append, List.flatten_singleton]
      apply List.mem_append_right
      apply List.mem_append_left
      apply List.mem_append_right
      unfold deletions
      simp
    · rw [writeAll_concat]
      unfold withState
      rw [write_append]
      rfl
    intro hall
    obtain ⟨hpruned, hlength⟩ := hp.count fun i hi => hall i (by omega)
    unfold blocksPerFlush at hflush hlength ⊢
    omega
  count := by
    intro hall
    obtain ⟨hpruned, hlength⟩ := hp.count fun i hi => hall i (by omega)
    have hnext : n / blocksPerFlush + 1 = (n + 1) / blocksPerFlush := by
      unfold blocksPerFlush at hflush ⊢
      omega
    refine ⟨congrArg (· + 1) hpruned, ?_⟩
    rw [flush_writes, add_writes, List.length_append, List.length_singleton, hlength, hnext]

end

lemma visit (state : BlockStore.EvidenceAge) (height : Int) :
    Pruned enc U bs (n + 1)
      (p.visit state height bs.height (bs.base + n)) := by
  unfold BlockStore.Pruning.visit
  rw [hp.loadBlockMeta]
  cases hload : bs.loadBlockMeta (bs.base + n) with
  | none => exact hp.skip hload
  | some m =>
    dsimp only
    split
    next h => exact hp.flush hm hload _ h
    next h => exact hp.add hm hload _ h

end

lemma pruneLoop (state : BlockStore.EvidenceAge) (height : Int) (n : Nat) :
    Pruned enc U bs n (bs.pruneLoop state height n) := by
  induction n with
  | zero => exact zero bs height
  | succ n ih =>
    have hstep : bs.pruneLoop state height (n + 1)
        = (bs.pruneLoop state height n).visit state height bs.height (bs.base + n) := by
      unfold BlockStore.pruneLoop
      rw [List.range_succ, List.foldl_append]
      rfl
    rw [hstep]
    exact ih.visit hm state height

end

end Pruned

lemma pruneBlocks_ok {bs' : BlockStore} {height : Int}
    {state : BlockStore.EvidenceAge} :
    bs.perform enc (.pruneBlocks height state) = some (writes, bs')
      ↔ 0 < height ∧ height ≤ bs.height ∧ bs.base ≤ height
        ∧ ∃ p, p = bs.pruneLoop state height (height - bs.base).toNat
          ∧ writes = p.writes ++ [withState p.batch height bs.height]
          ∧ bs' = ⟨height, bs.height,
            p.db.write (withState p.batch height bs.height)⟩ := by
  unfold perform pruneBlocks
  dsimp only
  split
  next h => exact ⟨fun hp => (by cases hp), fun h' => absurd h'.1 (by omega)⟩
  next hpos =>
  split
  next h => exact ⟨fun hp => (by cases hp), fun h' => absurd h'.2.1 (by omega)⟩
  next hlatest =>
  split
  next h => exact ⟨fun hp => (by cases hp), fun h' => absurd h'.2.2.1 (by omega)⟩
  next hbase =>
  constructor
  · intro h
    cases h
    exact ⟨by omega, by omega, by omega, _, rfl, rfl, rfl⟩
  rintro ⟨-, -, -, p, rfl, rfl, rfl⟩
  rfl

namespace Session

variable {s : Session}

variable {height : Int} {state : BlockStore.EvidenceAge} {steps : List Step}

lemma Sound.pruneBlocks (hd : Distinct enc U) (hs : Sound enc U s)
    {writes : List Batch} {store : BlockStore}
    (h : s.store.perform enc (.pruneBlocks height state)
      = some (writes, store)) :
    Sound enc U ⟨store, s.saved⟩ ∧ store.db = s.store.db.writeAll writes := by
  obtain ⟨hpos, hlatest, hbase, p, hp, rfl, rfl⟩ := pruneBlocks_ok.mp h
  have hpruned := Pruned.pruneLoop hs.metas state height (height - s.store.base).toNat
  rw [← hp] at hpruned
  have hdb : p.db.write (withState p.batch height s.store.height)
      = s.store.db.writeAll (p.writes ++ [withState p.batch height s.store.height]) := by
    rw [writeAll_concat, hpruned.db]
  refine ⟨?_, hdb⟩
  have hflat : p.db.write (withState p.batch height s.store.height)
      = s.store.db.write (p.writes.flatten ++ withState p.batch height s.store.height) := by
    rw [hdb, writeAll_eq_write, List.flatten_append, List.flatten_singleton]
  have hdeletes : ∀ w ∈ p.writes.flatten ++ withState p.batch height s.store.height,
      (∃ i < (height - s.store.base).toNat, Deletes enc U (s.store.base + i) w)
      ∨ ∃ base height, w = put .blockStore (.state base height) := by
    intro w hw
    rcases List.mem_append.mp hw with hw | hw
    · exact hpruned.writes w hw
    rcases List.mem_append.mp hw with hw | hw
    · exact .inl (hpruned.batch w hw)
    exact .inr ⟨_, _, List.mem_singleton.mp hw⟩
  have hopened := @newBlockStore_withState p.db p.batch height s.store.height fun _ => by omega
  rw [hflat] at hopened ⊢
  refine hs.shrink hd hopened (.inr hpos) hbase (le_refl _) ?_ ?_
  · intro w hw
    rcases hdeletes w hw with ⟨i, hi, h⟩ | ⟨base, height', rfl⟩
    · exact ⟨s.store.base + i, by omega, h.2⟩
    exact ⟨height - 1, by omega, trivial⟩
  intro w hw h v hkey
  rcases hdeletes w hw with ⟨i, hi, hdel⟩ | ⟨base, height', rfl⟩
  · rw [hdel.1]
    exact nofun
  cases hkey

/-- A crash comes between an intermediate flush of `PruneBlocks` and the
write after it. -/
def Interrupted (s : Session) (c : Step) : Prop :=
  match c.op, c.crash with
  | .pruneBlocks height _, some k =>
    0 < height ∧ height ≤ s.store.height ∧ s.store.base ≤ height ∧ 0 < k
      ∧ k ≤ (height - s.store.base).toNat / BlockStore.blocksPerFlush
  | _, _ => False

lemma Sound.metas_pruned (hs : Sound enc U s) (hpos : 0 < height)
    (hlatest : height ≤ s.store.height) :
    ∀ i < (height - s.store.base).toNat, (s.store.loadBlockMeta
      (s.store.base + i)).isSome := by
  intro i hi
  have hbase : 0 < s.store.base := by
    rcases hs.bounds with h | h
    · omega
    exact h
  obtain ⟨saved, -, -, -, -, hold⟩ := hs.holds (s.store.base + i) (by omega) (by omega) (by omega)
  rw [loadBlockMeta_eq_some.mpr hold.blockMeta]
  rfl

/-- After a crash between two flushes, the base is the height of a block whose
index has been deleted. -/
lemma Sound.interrupted (hs : Sound enc U s) {s' : Session} {k : Nat}
    (h : s.Interrupted ⟨.pruneBlocks height state, some k⟩)
    (hs' : s' = s.step enc ⟨.pruneBlocks height state, some k⟩) :
    newBlockStore s'.store.db = s'.store ∧ s'.store.base
        = s.store.base + (k * blocksPerFlush : Nat) - 1
    ∧ s'.store.height = s.store.height
    ∧ 0 < s'.store.base ∧ s'.store.base ≤ s'.store.height
    ∧ s'.saved = s.saved
    ∧ ∃ saved, s.saved s'.store.base = some saved
        ∧ s'.store.db (.blockHash (saved.block.hash enc)) = none := by
  obtain ⟨hpos, hlatest, hbase, hk, hle⟩ := h
  have hmetas := hs.metas_pruned hpos hlatest
  have hpruned := Pruned.pruneLoop hs.metas state height (height - s.store.base).toNat
  generalize hp : s.store.pruneLoop state height (height - s.store.base).toNat = p at hpruned
  rw [← (hpruned.count hmetas).2] at hle
  obtain ⟨i, hi, m, hload, hmem, hstate, hcount⟩ := hpruned.flushed k hk hle
  have hi' := hcount hmetas
  have hbasepos : 0 < s.store.base := by
    rcases hs.bounds with h | h
    · omega
    exact h
  obtain ⟨saved, hsaved, -, -, -, hold⟩ := hs.holds (s.store.base + i)
    (by omega) (by omega) (by omega)
  have hmeta : m = newBlockMeta enc saved.block saved.parts := by
    rw [loadBlockMeta_eq_some.mpr hold.blockMeta] at hload
    exact (Option.some.inj hload).symm
  -- the step is the reopening of what the first `k` flushes have left
  have hstep : s' = ⟨newBlockStore (s.store.db.writeAll (p.writes.take k)), s.saved⟩ := by
    have hperform : s.store.perform enc (.pruneBlocks height state)
        = some (p.writes ++ [withState p.batch height s.store.height],
          ⟨height, s.store.height, p.db.write (withState p.batch height s.store.height)⟩) :=
      pruneBlocks_ok.mpr ⟨hpos, hlatest, hbase, p, hp.symm, rfl, rfl⟩
    rw [hs']
    unfold step
    simp only
    rw [hperform]
    simp only
    rw [List.take_append_of_le_length hle, if_neg]
    rw [List.length_append, List.length_singleton]
    omega
  have hopened : newBlockStore (s.store.db.writeAll (p.writes.take k))
      = ⟨s.store.base + i, s.store.height, s.store.db.writeAll (p.writes.take k)⟩ := by
    unfold newBlockStore loadBlockStoreState
    rw [hstate]
    simp only
    rw [if_neg fun h => by omega]
  have hnone : s.store.db.writeAll (p.writes.take k)
      (.blockHash (saved.block.hash enc)) = none := by
    rw [writeAll_eq_write]
    apply write_of_agree
    · rw [hmeta] at hmem
      exact ⟨_, hmem, rfl⟩
    intro w hw hkey
    obtain ⟨b, hb, hwb⟩ := List.mem_flatten.mp hw
    rcases hpruned.writes w (List.mem_flatten.mpr ⟨b, List.mem_of_mem_take hb, hwb⟩)
      with ⟨j, -, hdel⟩ | ⟨base, height', rfl⟩
    · exact hdel.1
    cases hkey
  rw [hstep, hopened]
  exact ⟨hopened, by dsimp only; omega, rfl, by dsimp only; omega,
    by dsimp only; omega, rfl, saved, hsaved, hnone⟩

lemma Sound.step (hd : Distinct enc U) (hs : Sound enc U s) {c : Step}
    (hgiven : ∀ saved, c.op.saves = some saved →
      saved.Given enc ∧ U saved.block)
    (hc : ¬s.Interrupted c) : Sound enc U (s.step enc c) := by
  cases hsaves : c.op.saves with
  | some saved =>
    obtain ⟨hg, hU⟩ := hgiven saved hsaves
    exact hs.save hd hsaves hg hU
  | none =>
  obtain ⟨op, crash⟩ := c
  have hremember : s.remember op = s.saved := by
    unfold remember
    rw [hsaves]
  unfold Session.step
  cases hperform : s.store.perform enc op with
  | none => exact hs
  | some r =>
  obtain ⟨writes, store⟩ := r
  rw [hremember]
  -- the store as the completed operation leaves it
  have hdone : Sound enc U ⟨store, s.saved⟩ ∧ store.db = s.store.db.writeAll writes := by
    cases op with
    | saveBlock => cases hsaves
    | saveBlockWithExtendedCommit => cases hsaves
    | pruneBlocks height state => exact hs.pruneBlocks hd hperform
    | deleteLatestBlock =>
      cases hperform
      exact ⟨hs.deleteLatestBlock hd, rfl⟩
  cases crash with
  | none => exact hdone.1
  | some k =>
    dsimp only
    rw [ite_self]
    by_cases hk : writes.length ≤ k
    · rw [List.take_of_length_le hk, ← hdone.2]
      rw [show newBlockStore store.db = store from hdone.1.opened]
      exact hdone.1
    -- nothing has been written
    have hzero : k = 0 := by
      cases op with
      | saveBlock => cases hsaves
      | saveBlockWithExtendedCommit => cases hsaves
      | pruneBlocks height state =>
        obtain ⟨hpos, hlatest, hbase, p, hp, rfl, -⟩ := pruneBlocks_ok.mp hperform
        have hlength := ((Pruned.pruneLoop hs.metas state height
          _).count (hs.metas_pruned hpos hlatest)).2
        rw [← hp] at hlength
        rw [List.length_append, List.length_singleton] at hk
        by_contra hne
        exact hc ⟨hpos, hlatest, hbase, by omega, by omega⟩
      | deleteLatestBlock =>
        cases hperform
        have : ¬1 ≤ k := hk
        omega
    rw [hzero]
    change Sound enc U ⟨newBlockStore s.store.db, s.saved⟩
    rw [hs.opened]
    exact hs

lemma Sound.not_loads (hs : Sound enc U s) {c : Step} (hc : s.Interrupted c) :
    ¬(newBlockStore (s.step enc c).store.db).Loads enc
      (s.step enc c).saved := by
  obtain ⟨op, crash⟩ := c
  cases op with
  | saveBlock | saveBlockWithExtendedCommit
  | deleteLatestBlock => cases crash <;> cases hc
  | pruneBlocks height state =>
    cases crash with
    | none => cases hc
    | some k =>
      obtain ⟨hopened, -, -, hpos, hle, hsaved, saved, hb, hnone⟩ := hs.interrupted hc rfl
      rw [hopened, hsaved]
      intro hloads
      obtain ⟨saved', hb', -, -, hindex⟩ := hloads _ hpos (le_refl _) hle
      rw [hb] at hb'
      cases hb'
      rw [hnone] at hindex
      cases hindex

-- ==== runs

lemma run_concat (enc : BlockEncoding) (steps : List Step) (c : Step) :
    run enc (steps ++ [c]) = (run enc steps).step enc c := by
  unfold run
  rw [List.foldl_append]
  rfl

def Given (enc : BlockEncoding) (steps : List Step) : Prop :=
  ∀ c ∈ steps, ∀ saved, c.op.saves = some saved → saved.Given enc

def SavedIn (steps : List Step) (b : Block) : Prop :=
  ∃ c ∈ steps, ∃ saved, c.op.saves = some saved ∧ saved.block = b

/-- A step of a run that is not interrupted keeps a session sound. -/
lemma Sound.next (hd : Distinct enc (SavedIn steps)) (hgiven : Given enc steps)
    {before : List Step} {c : Step} (hbefore : (before ++ [c]).IsPrefix steps)
    (hs : Sound enc (SavedIn steps) (run enc before))
    (hc : ¬(run enc before).Interrupted c) :
    Sound enc (SavedIn steps) (run enc (before ++ [c])) := by
  have hmem : c ∈ steps := hbefore.subset (by simp)
  rw [run_concat]
  exact hs.step hd (fun saved hsaved =>
    ⟨hgiven c hmem saved hsaved, c, hmem, saved, hsaved, rfl⟩) hc

-- ---- a store of blocks

def sampleBlock (height : Nat) : Block where
  header :=
    { version := ⟨blockProtocol, 0⟩, chainID := "", height := height
      time := 0, lastBlockID := .zero, lastCommitHash := [], dataHash := []
      validatorsHash := [], nextValidatorsHash := [], consensusHash := []
      appHash := [], lastResultsHash := [], evidenceHash := []
      proposerAddress := [] }
  txs := []
  evidence := []
  lastCommit := ⟨0, 0, .zero, []⟩

/-- Blocks are marshalled as so many bytes as they are high. -/
def sampleBlockEncoding : BlockEncoding where
  sum := id
  header := fun h => List.replicate h.height.toNat 0
  validators := fun _ => []
  duplicateVote := fun _ => []
  commitSig := fun _ => []
  evidence := fun _ => []
  marshal := fun b => List.replicate b.height.toNat 0
  unmarshal := fun bytes => some (sampleBlock bytes.length)

def sampleParts (height : Nat) : PartSet where
  total := 1
  hash := []
  parts := [some ⟨0, List.replicate height 0, ⟨1, 0, [], []⟩⟩]
  count := 1
  byteSize := height

def saveSample (height : Nat) : Step :=
  ⟨.saveBlock (sampleBlock height) (sampleParts height) ⟨height, 0, .zero, []⟩, none⟩

lemma given_saveSample
    (h : ∀ c ∈ steps, (∃ i, c = saveSample (i + 1)) ∨ c.op.saves = none) :
    Given sampleBlockEncoding steps := by
  intro c hc saved hsaved
  rcases h c hc with ⟨i, rfl⟩ | hnone
  · cases hsaved
    refine ⟨?_, rfl, ?_⟩
    · change (0 : Int) < ((i + 1 : Nat) : Int)
      omega
    change some (sampleBlock (List.length _)) = some _
    simp [PartSet.bytes, sampleParts]
  rw [hnone] at hsaved
  cases hsaved

lemma distinct_saveSample
    (h : ∀ c ∈ steps, (∃ i, c = saveSample (i + 1)) ∨ c.op.saves = none) :
    Distinct sampleBlockEncoding (SavedIn steps) := by
  have hblock : ∀ b, SavedIn steps b → ∃ i, b = sampleBlock i := by
    rintro b ⟨c, hc, saved, hsaved, rfl⟩
    rcases h c hc with ⟨i, rfl⟩ | hnone
    · cases hsaved
      exact ⟨i + 1, rfl⟩
    rw [hnone] at hsaved
    cases hsaved
  intro b b' hb hb' hhash
  obtain ⟨i, rfl⟩ := hblock b hb
  obtain ⟨j, rfl⟩ := hblock b' hb'
  have hlength := congrArg List.length hhash
  have hij : i = j := by
    simpa [Block.hash, Block.fillHeader, sampleBlockEncoding, sampleBlock] using hlength
  rw [hij]

/-- After a crash anywhere, every height in the range loads as it was saved,
all along a run, exactly when no crash comes between an intermediate flush of
`PruneBlocks` and the write after it. -/
theorem loads_iff_uninterrupted (enc : BlockEncoding) (steps : List Step)
    (hgiven : Given enc steps) (hd : Distinct enc (SavedIn steps)) :
    (∀ before, before.IsPrefix steps →
      (newBlockStore (run enc before).store.db).Loads enc
        (run enc before).saved)
      ↔ Along (fun before c => ¬(run enc before).Interrupted c) [] steps := by
  refine forall_prefix_iff_along_of
    (J := fun before => Sound enc (SavedIn steps) (run enc before))
    Sound.start (fun _ hs => hs.loads) fun before c hbefore hs =>
      ⟨fun hloads hc => ?_, hs.next hd hgiven hbefore⟩
  rw [run_concat] at hloads
  exact hs.not_loads hc hloads

/-- A block is saved and another one, and the first is pruned. -/
def pruneOne : List Step :=
  [saveSample 1, saveSample 2, ⟨.pruneBlocks 2 ⟨2, 0, ⟨1, 1⟩⟩, some 1⟩]

theorem loads_two_blocks : Given sampleBlockEncoding pruneOne
    ∧ ∀ before, before.IsPrefix pruneOne →
      (newBlockStore (run sampleBlockEncoding before).store.db).Loads
        sampleBlockEncoding (run sampleBlockEncoding before).saved := by
  have h : ∀ c ∈ pruneOne,
      (∃ i, c = saveSample (i + 1)) ∨ c.op.saves = none := by
    intro c hc
    simp only [pruneOne, List.mem_cons, List.not_mem_nil, or_false] at hc
    rcases hc with rfl | rfl | rfl
    · exact .inl ⟨0, rfl⟩
    · exact .inl ⟨1, rfl⟩
    exact .inr rfl
  refine ⟨given_saveSample h, (loads_iff_uninterrupted sampleBlockEncoding _
    (given_saveSample h) (distinct_saveSample h)).mpr ⟨id, id, ?_, trivial⟩⟩
  rintro ⟨-, -, -, -, hle⟩
  revert hle
  decide

def saveSamples (n : Nat) : List Step := (List.range n).map fun i => saveSample (i + 1)

lemma step_saveSample {n : Nat} (hheight : s.store.height = n) :
    (s.step sampleBlockEncoding (saveSample (n + 1))).store.base
      = (if s.store.base = 0 then (n : Int) + 1 else s.store.base)
    ∧ (s.step sampleBlockEncoding (saveSample (n + 1))).store.height = n + 1
    ∧ (s.step sampleBlockEncoding (saveSample (n + 1))).saved = Function.update s.saved (n + 1)
            (some ⟨sampleBlock (n + 1), sampleParts (n + 1)⟩) := by
  have hsave : s.store.saveBlockToBatch sampleBlockEncoding
      (sampleBlock (n + 1)) (sampleParts (n + 1))
      ⟨(n + 1 : Nat), 0, .zero, []⟩
      = .ok ([], partWrites (n + 1 : Nat) [⟨0, List.replicate (n + 1) 0, ⟨1, 0, [], []⟩⟩]
          ++ blockWrites sampleBlockEncoding (sampleBlock (n + 1))
              (sampleParts (n + 1)) ⟨(n + 1 : Nat), 0, .zero, []⟩) := by
    unfold saveBlockToBatch
    rw [hheight]
    simp only [sampleBlock, Nat.cast_succ, ne_eq, not_true_eq_false, and_false, if_false]
    rfl
  unfold step perform saveBlock saveSample
  simp only
  rw [hsave]
  exact ⟨rfl, rfl, rfl⟩

lemma run_saveSamples (n : Nat) : (run sampleBlockEncoding (saveSamples n)).store.base
      = (if n = 0 then 0 else 1)
    ∧ (run sampleBlockEncoding (saveSamples n)).store.height = n
    ∧ ∀ i < n, (run sampleBlockEncoding (saveSamples n)).saved (i + 1)
        = some ⟨sampleBlock (i + 1), sampleParts (i + 1)⟩ := by
  induction n with
  | zero => exact ⟨rfl, rfl, nofun⟩
  | succ n ih =>
    obtain ⟨hbase, hheight, hsaved⟩ := ih
    have hrun : run sampleBlockEncoding (saveSamples (n + 1))
        = (run sampleBlockEncoding (saveSamples n)).step
            sampleBlockEncoding (saveSample (n + 1)) := by
      rw [← run_concat]
      unfold saveSamples
      rw [List.range_succ, List.map_append]
      rfl
    obtain ⟨hbase', hheight', hsaved'⟩ := step_saveSample hheight
    rw [hrun, hbase', hheight', hsaved', hbase]
    refine ⟨?_, rfl, ?_⟩
    · cases n with
      | zero => rfl
      | succ n => rfl
    intro i hi
    by_cases hin : i = n
    · rw [hin, update_self]
    rw [update_of_ne (by omega)]
    exact hsaved i (by omega)

/-- Blocks are saved, all but the last are pruned, and the process crashes
after the first flush. -/
def pruneCrash (n : Nat) : List Step := saveSamples n ++ [⟨.pruneBlocks n ⟨n, 0, ⟨1, 1⟩⟩, some 1⟩]

/-- With more than a thousand blocks, the store then opens with a base whose
block cannot be found by its hash. -/
lemma run_pruneCrash {n : Nat} (hn : 1000 < n) :
    let s := run sampleBlockEncoding (pruneCrash n)
    let bs := newBlockStore s.store.db
    bs.base = 1000 ∧ bs.height = n
      ∧ s.saved 1000 = some ⟨sampleBlock 1000, sampleParts 1000⟩
      ∧ bs.loadBlockByHash sampleBlockEncoding
          ((sampleBlock 1000).hash sampleBlockEncoding) = none := by
  have hsamples : ∀ c ∈ saveSamples n, ∃ i, c = saveSample (i + 1) := by
    intro c hc
    obtain ⟨i, -, rfl⟩ := List.mem_map.mp hc
    exact ⟨i, rfl⟩
  have hquiet : Along (fun before c =>
      ¬(run sampleBlockEncoding before).Interrupted c) [] (saveSamples n) := by
    refine along_of_forall_mem (fun before c h => ?_) hsamples
    obtain ⟨i, rfl⟩ := h c (List.mem_append_right _ (List.mem_singleton_self c))
    exact id
  have hs : Sound sampleBlockEncoding (SavedIn (saveSamples n))
      (run sampleBlockEncoding (saveSamples n)) :=
    hquiet.invariant (J := fun before => Sound sampleBlockEncoding
      (SavedIn (saveSamples n)) (run sampleBlockEncoding before)) Sound.start
      fun _ _ hbefore hs => hs.next
        (distinct_saveSample fun c hc => .inl (hsamples c hc))
        (given_saveSample fun c hc => .inl (hsamples c hc)) hbefore
  obtain ⟨hbase, hheight, hsaved⟩ := run_saveSamples n
  rw [if_neg (by omega)] at hbase
  have hinterrupted : (run sampleBlockEncoding (saveSamples n)).Interrupted
      ⟨.pruneBlocks n ⟨n, 0, ⟨1, 1⟩⟩, some 1⟩ := by
    refine ⟨by omega, by omega, by omega, by omega, ?_⟩
    unfold blocksPerFlush
    omega
  obtain ⟨hopened, hb, hh, -, -, hsame, saved, hlost, hnone⟩ := hs.interrupted hinterrupted rfl
  rw [hbase] at hb
  have hb' : (1 : Int) + (1 * blocksPerFlush : Nat) - 1 = ((999 : Nat) : Int) + 1 := rfl
  have hthousand := hsaved 999 (by omega)
  rw [hb, hb', hthousand] at hlost
  cases hlost
  dsimp only
  rw [pruneCrash, run_concat, hopened, hsame, hh, hheight]
  refine ⟨hb, rfl, hthousand, ?_⟩
  unfold loadBlockByHash
  rw [hnone]

/-- A thousand and one blocks are saved, and the process crashes while the
first thousand are pruned. -/
theorem base_lost_after_crash :
    let s := run sampleBlockEncoding (pruneCrash 1001)
    let bs := newBlockStore s.store.db
    bs.base = 1000 ∧ bs.height = 1001
      ∧ s.saved 1000 = some ⟨sampleBlock 1000, sampleParts 1000⟩
      ∧ bs.loadBlockByHash sampleBlockEncoding
          ((sampleBlock 1000).hash sampleBlockEncoding) = none :=
  run_pruneCrash (by decide)

end Session

end HetuEngine.Blocks
