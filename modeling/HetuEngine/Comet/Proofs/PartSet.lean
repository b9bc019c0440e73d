/-
What the parts of a block amount to (types/part_set.go of hetu-cometbft).

A part is accepted when its Merkle proof ties its bytes to the root. The proof
is about a position, `Proof.Index`, and the part is stored at a position,
`Index`, and nothing compares the two. So an accepted part holds the bytes of
the data at the position its proof names, and a set can be completed with one
piece of the data in every place.

`fromData_header` says what the header of the data is, as long as the
arithmetic in `uint32` is exact. `addPart_cases` is all that adding a part
can do, `Holding` what it preserves, and `readParts_spec` and `drain_spec`
what reading amounts to.
-/
import HetuEngine.Lib.Along
import HetuEngine.Comet.Parts

namespace HetuEngine.Comet

open Lib Lib.Weight List Merkle PartSet Nat Proof PartSetReader

variable {sum : Bytes → Bytes}

-- ==== The pieces of the data

def chunk (data : Bytes) (partSize i : Nat) : Bytes := (data.drop (i * partSize)).take partSize

def chunkCount (data : Bytes) (partSize : Nat) : Nat := (data.length + partSize - 1) / partSize

def chunks (data : Bytes) (partSize : Nat) : List Bytes :=
  (List.range (chunkCount data partSize)).map (chunk data partSize)

@[simp] lemma length_chunks (data : Bytes) (partSize : Nat) :
    (chunks data partSize).length = chunkCount data partSize := by
  simp [chunks]

variable {data : Bytes} {partSize : Nat} {verify : Proof → (root leaf : Bytes) → Bool} {α : Type}

lemma chunks_getElem? {i : Nat} {bytes : Bytes}
    (h : (chunks data partSize)[i]? = some bytes) :
    bytes = chunk data partSize i := by
  rw [chunks, List.getElem?_map] at h
  obtain ⟨j, hj, rfl⟩ := Option.map_eq_some_iff.mp h
  rw [(List.getElem?_eq_some_iff.mp hj).2.symm, List.getElem_range]

lemma flatten_chunk (data : Bytes) (partSize : Nat) :
    ∀ n, ((List.range n).map (chunk data partSize)).flatten
      = data.take (n * partSize) := by
  intro n
  induction n with
  | zero => simp
  | succ n ih =>
    rw [range_succ, map_append, flatten_append, ih, succ_mul, take_add]
    simp [chunk]

lemma flatten_chunks (hpos : 0 < partSize) :
    (chunks data partSize).flatten = data := by
  rw [chunks, flatten_chunk, chunkCount]
  refine take_of_length_le ?_
  have := div_add_mod' (data.length + partSize - 1) partSize
  have := mod_lt (data.length + partSize - 1) hpos
  omega

lemma mapM_some {β : Type} {f : α → Option β} {g : α → β} {xs : List α}
    (h : ∀ x ∈ xs, f x = some (g x)) : xs.mapM f = some (xs.map g) := by
  induction xs with
  | nil => rfl
  | cons x xs ih =>
    rw [mapM_cons, h x mem_cons_self, ih fun y hy => h y (mem_cons_of_mem _ hy)]
    rfl

/-- A cut in `uint32` is exact when the data is short enough. -/
lemma slice_chunk {i : Nat} (hi : i < chunkCount data partSize)
    (hfit : data.length + partSize - 1 < 2 ^ 32) :
    slice data (word 32 (i * partSize))
      (min data.length (word 32 ((i + 1) * partSize)))
      = some (chunk data partSize i) := by
  have hend : (i + 1) * partSize ≤ data.length + partSize - 1 :=
    (mul_le_mul_right _ hi).trans (div_mul_le_self _ _)
  rw [succ_mul] at hend ⊢
  rw [word_of_lt (by omega), word_of_lt (by omega), slice, if_pos (by omega), chunk, drop_take]
  congr 1
  by_cases hle : data.length ≤ i * partSize + partSize
  · rw [min_eq_left hle, take_of_length_le (by rw [length_drop]),
      take_of_length_le (by rw [length_drop]; omega)]
  rw [min_eq_right (by omega), Nat.add_sub_cancel_left]

lemma fromData_header (hpos : 0 < partSize)
    (hfit : data.length + partSize - 1 < 2 ^ 32) :
    ∃ full, fromData sum data partSize = some full
      ∧ full.header
        = ⟨chunkCount data partSize,
          hashFromByteSlices sum (chunks data partSize)⟩ := by
  have htotal : wordSub 32 (word 32 (word 32 data.length + partSize)) 1
      = data.length + partSize - 1 := by
    rw [word_add_word]
    by_cases h : data.length + partSize < 2 ^ 32
    · rw [word_of_lt h]
      exact wordSub_of_le (by omega)
    have heq : data.length + partSize = 2 ^ 32 := by omega
    rw [heq]
    rfl
  have hcut : (range (chunkCount data partSize)).mapM (fun i => slice data (word 32 (i * partSize))
        (min data.length (word 32 ((i + 1) * partSize))))
      = some (chunks data partSize) :=
    mapM_some fun i hi => slice_chunk (mem_range.mp hi) hfit
  unfold fromData
  simp only [if_neg hpos.ne', htotal]
  rw [← chunkCount, hcut]
  refine ⟨_, rfl, ?_⟩
  rw [hashFromByteSlices, ← trails_snd]
  rfl

-- ==== Adding parts

lemma addPart_cases {ps ps' : PartSet} {part : Part} {added : Bool}
    (h : ps.addPart verify part = .ok (ps', added)) :
    (added = false ∧ ps' = ps)
    ∨ (added = true ∧ part.index < ps.total
        ∧ ps.parts.getD part.index none = none
        ∧ part.proof.total = ps.total
        ∧ verify part.proof ps.hash part.bytes = true
        ∧ ps' = { ps with
            parts := ps.parts.set part.index (some part)
            count := ps.count + 1
            byteSize := ps.byteSize + part.bytes.length }) := by
  unfold addPart at h
  split at h
  · cases h
  next hindex =>
  split at h
  · cases h
    exact .inl ⟨rfl, rfl⟩
  next hslot =>
  split at h
  · cases h
  next htotal =>
  split at h
  · cases h
  next hverify =>
  cases h
  refine .inr ⟨rfl, not_le.mp hindex, ?_, not_not.mp htotal, ?_, rfl⟩
  · simpa using hslot
  simpa using hverify

lemma addPart_accepts {ps : PartSet} {part : Part} (hindex : part.index < ps.total)
    (hslot : ps.parts.getD part.index none = none) (htotal : part.proof.total = ps.total)
    (hverify : verify part.proof ps.hash part.bytes = true) :
    ps.addPart verify part = .ok ({ ps with
      parts := ps.parts.set part.index (some part)
      count := ps.count + 1
      byteSize := ps.byteSize + part.bytes.length }, true) := by
  unfold addPart
  rw [if_neg (not_le.mpr hindex), hslot, if_neg (not_not.mpr htotal), hverify]
  rfl

/-- The set after these parts were handed to it, one after the other. -/
def PartSet.receive (sum : Bytes → Bytes) (ps : PartSet) (parts : List Part) : PartSet :=
  parts.foldl (fun ps part =>
    match ps.addPart (Proof.verify sum) part with
    | .ok (ps', _) => ps'
    | .error _ => ps) ps

lemma receive_concat (ps : PartSet) (parts : List Part) (part : Part) :
    ps.receive sum (parts ++ [part])
    = match (ps.receive sum parts).addPart (Proof.verify sum) part with
      | .ok (ps', _) => ps'
      | .error _ => ps.receive sum parts := by
  unfold receive
  rw [foldl_append]
  rfl

/-- A set for these pieces that was handed these parts: a filled slot holds
one of them, with the piece its proof names. -/
structure Holding (sum : Bytes → Bytes) (pieces : List Bytes)
    (received : List Part) (ps : PartSet) : Prop where
  header : ps.header = ⟨pieces.length, hashFromByteSlices sum pieces⟩
  length : ps.parts.length = pieces.length
  count : ps.count = ps.parts.countP Option.isSome
  slots : ∀ i part, ps.parts[i]? = some (some part) →
    part ∈ received ∧ part.index = i ∧ pieces[part.proof.index.toNat]? = some part.bytes

lemma holding_fromHeader (pieces : List Bytes) : Holding sum pieces []
    (.fromHeader ⟨pieces.length, hashFromByteSlices sum pieces⟩) where
  header := rfl
  length := length_replicate
  count := by simp [fromHeader, countP_replicate]
  slots := by
    intro i part h
    rw [fromHeader, getElem?_replicate] at h
    split at h
    · cases h
    cases h

namespace Holding

variable {pieces : List Bytes} {received : List Part} {ps ps' : PartSet}
  {part : Part} {added : Bool}

lemma mono (h : Holding sum pieces received ps) :
    Holding sum pieces (received ++ [part]) ps :=
  { h with slots := fun i p hp => ⟨mem_append_left _ (h.slots i p hp).1, (h.slots i p hp).2⟩ }

lemma total (h : Holding sum pieces received ps) : ps.total = pieces.length :=
  congrArg PartSetHeader.total h.header

lemma isSome_of_complete (hold : Holding sum pieces received ps)
    (h : ps.isComplete = true) : ∀ part ∈ ps.parts, part.isSome = true := by
  refine countP_eq_length.mp ?_
  rw [← hold.count, hold.length, ← hold.total]
  exact of_decide_eq_true h

section

variable (hsize : ∀ input, (sum input).length = tmhashSize) (hfree : CollisionFree sum pieces)
include hsize hfree

lemma accepted (hold : Holding sum pieces received ps)
    (h : ps.addPart (Proof.verify sum) part = .ok (ps', true)) :
    pieces[part.proof.index.toNat]? = some part.bytes := by
  obtain ⟨hf, -⟩ | ⟨-, -, -, htotal, hverify, -⟩ := addPart_cases h
  · cases hf
  have hhash : ps.hash = hashFromByteSlices sum pieces := congrArg PartSetHeader.hash hold.header
  rw [hhash] at hverify
  rw [hold.total] at htotal
  exact (verify_sound hsize hfree htotal hverify).2

lemma addPart (hold : Holding sum pieces received ps)
    (h : ps.addPart (Proof.verify sum) part = .ok (ps', added)) :
    Holding sum pieces (received ++ [part]) ps' := by
  obtain ⟨-, rfl⟩ | ⟨rfl, hindex, hslot, -, -, rfl⟩ := addPart_cases h
  · exact hold.mono
  have hpiece := hold.accepted hsize hfree h
  have hlt : part.index < ps.parts.length := by
    rw [hold.length, ← hold.total]
    exact hindex
  have hnone : ps.parts[part.index] = none := by simpa [getD, hlt] using hslot
  constructor
  · exact hold.header
  · exact length_set.trans hold.length
  · show ps.count + 1 = _
    rw [countP_set hlt, hnone, hold.count]
    rfl
  intro i p hp
  rw [getElem?_set] at hp
  split at hp
  · next heq =>
    cases hp
    exact ⟨by simp, heq, hpiece⟩
  exact hold.mono.slots i p hp

/-- Whatever parts it is handed. -/
lemma receive (parts : List Part) :
    Holding sum pieces parts (receive sum
      (.fromHeader ⟨pieces.length, hashFromByteSlices sum pieces⟩) parts) := by
  induction parts using reverseRecOn with
  | nil => exact holding_fromHeader pieces
  | append_singleton parts part ih =>
    rw [receive_concat]
    split
    · next h => exact ih.addPart hsize hfree h
    exact ih.mono

end

end Holding

-- ==== Reading

namespace PartSetReader

def rest (psr : PartSetReader) : Bytes :=
  psr.reader ++ (psr.later.map fun part => part.elim [] Part.bytes).flatten

def Full (psr : PartSetReader) : Prop := ∀ part ∈ psr.later, part.isSome = true

/-- What a read of `n` bytes returns and leaves. -/
def Reads (psr : PartSetReader) (n : Nat)
    (outcome : Option (Bytes × Bool × PartSetReader)) : Prop :=
  ∃ after, outcome = some (psr.rest.take n, decide (psr.rest.length < n), after)
    ∧ after.Full ∧ after.rest = psr.rest.drop n

variable {psr : PartSetReader} {n : Nat}

lemma readPart_spec (hn : 0 < n) (hle : n ≤ psr.reader.length)
    (hfull : psr.Full) : Reads psr n (some (psr.readPart n)) := by
  have hne : psr.reader ≠ [] := by
    intro h
    rw [h] at hle
    exact absurd hle (not_le.mpr hn)
  have heof : ¬ psr.rest.length < n := by
    rw [rest, length_append]
    omega
  refine ⟨{ psr with reader := psr.reader.drop n }, ?_, hfull, ?_⟩
  · rw [readPart, if_neg hne, decide_eq_false heof, rest, take_append_of_le_length hle]
  rw [rest, rest, drop_append_of_le_length hle]

/-- A read into a buffer that is not empty returns the next bytes, and
`io.EOF` when they do not fill it. -/
lemma readParts_spec (later : List (Option Part)) {reader : Bytes}
    (hn : 0 < n) (hfull : Full ⟨reader, later⟩) :
    Reads ⟨reader, later⟩ n (readParts n reader later) := by
  induction later generalizing n reader with
  | nil =>
    rw [readParts]
    split
    · next hle => exact readPart_spec hn hle hfull
    next hlt =>
    have hrest : rest ⟨reader, []⟩ = reader := by simp [rest]
    refine ⟨⟨[], []⟩, ?_, hfull, ?_⟩
    · rw [hrest, take_of_length_le (by omega), decide_eq_true (by omega)]
    rw [hrest, drop_of_length_le (by omega)]
    rfl
  | cons slot later ih =>
    cases slot with
    | none => exact absurd (hfull none mem_cons_self) (by simp)
    | some part =>
      rw [readParts]
      split
      · next hle => exact readPart_spec hn hle hfull
      next hlt =>
      -- The rest of the buffer is read from the next part on.
      obtain ⟨after, hread, hafter, hleft⟩ :=
        @ih (n - reader.length) part.bytes (by omega) (fun p hp => hfull p (mem_cons_of_mem _ hp))
      have hrest : rest ⟨reader, some part :: later⟩ = reader ++ rest ⟨part.bytes, later⟩ := by
        simp [rest]
      have htake : reader.take n = reader := take_of_length_le (by omega)
      have hdrop : reader.drop n = [] := drop_of_length_le (by omega)
      refine ⟨after, ?_, hafter, ?_⟩
      · rw [hread, hrest, take_append, length_append, htake]
        simp only [Option.map_some, Option.some.injEq, Prod.mk.injEq,
          decide_eq_decide, true_and, and_true]
        omega
      rw [hleft, hrest, drop_append, hdrop, nil_append]

/-- Reading into buffers that are not empty returns all that is to be read,
and meets the end when they are large enough. -/
lemma drain_spec (sizes : List Nat) (hpos : ∀ n ∈ sizes, 0 < n)
    (hfull : psr.Full) :
    psr.drain sizes
      = some
        (psr.rest.take sizes.sum, decide (psr.rest.length < sizes.sum)) := by
  induction sizes generalizing psr with
  | nil => simp [drain]
  | cons n sizes ih =>
    have hspec : Reads psr n (psr.read n) := readParts_spec psr.later (hpos n mem_cons_self) hfull
    obtain ⟨after, hread, hafter, hleft⟩ := hspec
    rw [drain, hread, sum_cons]
    by_cases hlt : psr.rest.length < n
    · rw [decide_eq_true hlt, decide_eq_true (by omega), take_of_length_le (by omega),
        take_of_length_le (by omega)]
    rw [decide_eq_false hlt]
    simp only
    rw [ih (fun m hm => hpos m (mem_cons_of_mem _ hm)) hafter, hleft, take_add, length_drop]
    simp only [Option.map_some, Option.some.injEq, Prod.mk.injEq, decide_eq_decide, true_and]
    omega

end PartSetReader

lemma getReader_complete {pieces : List Bytes} {received : List Part}
    {ps : PartSet} (hold : Holding sum pieces received ps)
    (hne : pieces ≠ []) (h : ps.isComplete = true) :
    ∃ psr, ps.getReader = some psr ∧ psr.Full ∧ psr.rest = ps.bytes := by
  have hall := hold.isSome_of_complete h
  unfold getReader
  rw [h]
  cases hparts : ps.parts with
  | nil =>
    have hlen := hold.length
    rw [hparts] at hlen
    exact absurd (length_eq_zero_iff.mp hlen.symm) hne
  | cons slot later =>
    rw [hparts] at hall
    cases slot with
    | none => exact absurd (hall none mem_cons_self) (by simp)
    | some part =>
      refine ⟨⟨part.bytes, later⟩, rfl, fun p hp => hall p (mem_cons_of_mem _ hp), ?_⟩
      rw [bytes, hparts]
      rfl

-- ==== A part in the wrong place

section

variable (first : Bytes)

/-- Data of two parts, of which the second is one byte long. -/
def strayData : Bytes := first ++ [2]

/-- The first part, with its own proof, as the part of any index. -/
def strayPart (index : Nat) : Part where
  index := index
  bytes := first
  proof := ⟨2, 0, tagHash 1, [tagHash 2]⟩

def lastPart : Part := ⟨1, [2], ⟨2, 1, tagHash 2, [tagHash 1]⟩⟩

/-- The two parts of the data, the second one first. -/
def bothParts : List Part := [lastPart, strayPart first 0]

end

variable {first : Bytes}

/-- The first part, handed over for both positions. -/
def strayParts (first : Bytes) : List Part := [strayPart first 0, strayPart first 1]

lemma inner_stray (first : Bytes) :
    innerHash (straySum first) (tagHash 1) (tagHash 2)
    = tagHash 3 := by
  rw [innerHash, straySum, strayTag, if_pos rfl]

lemma lastPart_verifies :
    lastPart.proof.verify (straySum first) (tagHash 3) [2] = true := by
  have hclimb : computeHashFromAunts (straySum first) 1 2 (tagHash 2)
      [tagHash 1] = some (tagHash 3) := by
    rw [← inner_stray first]
    simp [computeHashFromAunts, climb, splitPoint, byteSlices]
  exact decide_eq_true hclimb

section

variable (hfirst : first.length = blockPartSizeBytes)

include hfirst

lemma ne_of_length : first ≠ [2] := by
  rintro rfl
  exact absurd hfirst (by decide)

lemma chunks_stray :
    chunks (strayData first) blockPartSizeBytes = [first, [2]] := by
  have hcount : chunkCount (strayData first) blockPartSizeBytes = 2 := by
    rw [chunkCount, strayData, length_append, hfirst]
    decide
  have hone : 1 ≤ first.length := by
    rw [hfirst]
    decide
  rw [chunks, hcount]
  simp [range_succ, chunk, strayData, ← hfirst, hone]

lemma strayPart_verifies (index : Nat) :
    (strayPart first index).proof.verify (straySum first) (tagHash 3) first
      = true := by
  have hleaf : leafHash (straySum first) first = tagHash 1 :=
    congrArg tagHash (strayTag_first (ne_of_length hfirst))
  have hclimb : computeHashFromAunts (straySum first) 0 2 (tagHash 1)
      [tagHash 2] = some (tagHash 3) := by
    rw [← inner_stray first]
    simp [computeHashFromAunts, climb, splitPoint, byteSlices]
  unfold verify
  rw [hleaf]
  exact decide_eq_true hclimb

lemma strayPart_valid (index : Nat) :
    (strayPart first index).validateBasic = true := by
  simp [Part.validateBasic, strayPart, hfirst, validateBasic, tagHash,
    maxAunts]

lemma strayParts_valid : ∀ part ∈ strayParts first,
    part.validateBasic = true :=
  forall_mem_cons.mpr ⟨strayPart_valid hfirst 0,
    forall_mem_singleton.mpr (strayPart_valid hfirst 1)⟩

lemma bothParts_valid : ∀ part ∈ bothParts first, part.validateBasic = true :=
  forall_mem_cons.mpr ⟨by decide, forall_mem_singleton.mpr (strayPart_valid hfirst 0)⟩

lemma receive_stray : (fromHeader ⟨2, tagHash 3⟩).receive (straySum first)
        (strayParts first)
      = { total := 2
          hash := tagHash 3
          parts := [some (strayPart first 0), some (strayPart first 1)]
          count := 2
          byteSize := first.length + first.length } := by
  rw [receive, strayParts, foldl_cons,
    addPart_accepts zero_lt_two rfl rfl (strayPart_verifies hfirst 0),
    foldl_cons,
    addPart_accepts one_lt_two rfl rfl (strayPart_verifies hfirst 1)]
  simp [fromHeader, strayPart, replicate]

lemma receive_both :
    ((fromHeader ⟨2, tagHash 3⟩).receive (straySum first)
      (bothParts first)).isComplete = true := by
  rw [receive, bothParts, foldl_cons,
    addPart_accepts one_lt_two rfl rfl lastPart_verifies, foldl_cons,
    addPart_accepts zero_lt_two rfl rfl (strayPart_verifies hfirst 0)]
  rfl

end

-- ==== Reassembly

/-- The position that the proof of a part names has the bytes of the part's
own position. -/
def Part.Bound (data : Bytes) (partSize : Nat) (part : Part) : Prop :=
  chunk data partSize part.proof.index.toNat = chunk data partSize part.index

lemma bothParts_bound (first : Bytes) : ∀ part ∈ bothParts first,
    part.Bound (strayData first) blockPartSizeBytes :=
  forall_mem_cons.mpr ⟨rfl, forall_mem_singleton.mpr rfl⟩

/-- A complete set of bound parts is the data. -/
lemma bytes_of_bound (hpos : 0 < partSize) {received : List Part}
    {ps : PartSet} (hold : Holding sum (chunks data partSize) received ps)
    (hbound : ∀ part ∈ received, part.Bound data partSize)
    (h : ∀ part ∈ ps.parts, part.isSome = true) : ps.bytes = data := by
  have hslots : ps.parts.map (fun part => part.elim [] Part.bytes) = chunks data partSize := by
    refine ext_getElem ((length_map _).trans hold.length) ?_
    intro i hi hi'
    rw [length_map] at hi
    obtain ⟨part, hpart⟩ := Option.isSome_iff_exists.mp (h _ (getElem_mem hi))
    obtain ⟨hmem, hindex, hpiece⟩ := hold.slots i part (by rw [getElem?_eq_getElem hi, hpart])
    have hbytes : part.bytes = chunk data partSize i := by
      rw [chunks_getElem? hpiece, hbound part hmem, hindex]
    rw [getElem_map, hpart]
    show part.bytes = _
    rw [hbytes, eq_comm]
    exact chunks_getElem? (getElem?_eq_getElem hi')
  rw [bytes, hslots, flatten_chunks hpos]

lemma chunks_ne_nil (hpos : 0 < partSize) (h : data ≠ []) :
    chunks data partSize ≠ [] := by
  intro hnil
  have hflat := @flatten_chunks data _ hpos
  rw [hnil] at hflat
  exact h hflat.symm

/-- Whatever parts a set for the data is handed, a part that is accepted holds
the bytes at its index just when the position its proof names has the same
bytes, and one that is not accepted changes nothing. When all parts are
bound in this way and the set is complete, its reader returns the data. -/
theorem parts_reassemble (hsize : ∀ input, (sum input).length = tmhashSize) {data : Bytes}
    {partSize : Nat} (hpos : 0 < partSize) (hdata : data ≠ [])
    (hfit : data.length + partSize - 1 < 2 ^ 32)
    (hfree : CollisionFree sum (chunks data partSize)) {parts : List Part}
    (hbasic : ∀ part ∈ parts, part.validateBasic = true) :
    ∃ full, PartSet.fromData sum data partSize = some full ∧ Along (fun before part =>
        let ps := (PartSet.fromHeader full.header).receive sum before
        ∀ ps' added, ps.addPart (Proof.verify sum) part = .ok (ps', added)
          → (added = false → ps' = ps) ∧ (added = true
          → (part.bytes = chunk data partSize part.index ↔ part.Bound data partSize))) [] parts ∧
      ((∀ part ∈ parts, part.Bound data partSize) →
        let ps := (PartSet.fromHeader full.header).receive sum parts
        ps.isComplete = true →
        ∃ psr, ps.getReader = some psr ∧
          ∀ sizes : List Nat, (∀ n ∈ sizes, 0 < n) → psr.drain sizes
              = some (data.take sizes.sum, decide (data.length < sizes.sum))) := by
  obtain ⟨full, hfull, hheader⟩ := @fromData_header sum data _ hpos hfit
  rw [← length_chunks] at hheader
  refine ⟨full, hfull, ?_, ?_⟩
  · rw [hheader]
    refine along_of_forall_mem ?_ hbasic
    intro before part _ ps ps' added hadd
    have hold : Holding sum (chunks data partSize) before ps := Holding.receive hsize hfree before
    refine ⟨?_, ?_⟩
    · rintro rfl
      obtain ⟨-, rfl⟩ | ⟨hf, -⟩ := addPart_cases hadd
      · rfl
      cases hf
    rintro rfl
    rw [chunks_getElem? (hold.accepted hsize hfree hadd)]
    rfl
  intro hbound ps hcomplete
  have hold : Holding sum (chunks data partSize) parts ps := by
    have := Holding.receive hsize hfree parts
    rwa [← hheader] at this
  obtain ⟨psr, hpsr, hall, hrest⟩ := getReader_complete hold (chunks_ne_nil hpos hdata) hcomplete
  refine ⟨psr, hpsr, fun sizes hsizes => ?_⟩
  rw [psr.drain_spec sizes hsizes hall, hrest,
    bytes_of_bound hpos hold hbound (hold.isSome_of_complete hcomplete)]

theorem two_parts_reassemble : let first := replicate blockPartSizeBytes 1
    ∃ full, fromData (straySum first) (strayData first) blockPartSizeBytes
        = some full ∧
      let ps := (fromHeader full.header).receive (straySum first)
        (bothParts first)
      ps.isComplete = true ∧ ∃ psr, ps.getReader = some psr
        ∧ psr.drain [200000] = some (strayData first, true) := by
  intro first
  have hfirst : first.length = blockPartSizeBytes := length_replicate
  have hchunks := chunks_stray hfirst
  have hlen : (strayData first).length = 65537 := by
    rw [strayData, length_append, hfirst]
    rfl
  have hfit : (strayData first).length + blockPartSizeBytes - 1 < 2 ^ 32 := by
    rw [hlen]
    decide
  obtain ⟨full, hfull, -, hread⟩ := @parts_reassemble (straySum first)
    (fun _ => length_replicate) (strayData first) blockPartSizeBytes
    (by decide) (append_ne_nil_of_right_ne_nil _ (by decide)) hfit
    (hchunks ▸ straySum_free (ne_of_length hfirst)) (bothParts first)
    (bothParts_valid hfirst)
  obtain ⟨full', hfull', hheader⟩ := @fromData_header (straySum first)
    (strayData first) blockPartSizeBytes (by decide) hfit
  cases hfull.symm.trans hfull'
  rw [← length_chunks, hchunks, stray_root (ne_of_length hfirst)] at hheader
  have hcomplete : ((fromHeader full.header).receive (straySum first)
      (bothParts first)).isComplete = true := by
    rw [hheader]
    exact receive_both hfirst
  obtain ⟨psr, hpsr, hdrain⟩ := hread (bothParts_bound first) hcomplete
  refine ⟨full, hfull, hcomplete, psr, hpsr, ?_⟩
  rw [hdrain [200000] (by decide), sum_singleton,
    take_of_length_le (by rw [hlen]; decide), hlen]
  rfl

/-- The first part of the data passes its own check and is accepted at both
positions, and the reader of the complete set returns it twice. -/
theorem stray_part_misplaced : let first := replicate blockPartSizeBytes 1
    CollisionFree (straySum first) (chunks (strayData first) blockPartSizeBytes)
      ∧ (∀ part ∈ strayParts first, part.validateBasic = true)
      ∧ ∃ full, fromData (straySum first) (strayData first) blockPartSizeBytes = some full ∧
          let ps := (fromHeader full.header).receive (straySum first) (strayParts first)
          some (strayPart first 1) ∈ ps.parts
          ∧ (strayPart first 1).bytes ≠ chunk (strayData first) blockPartSizeBytes 1
          ∧ ps.isComplete = true
          ∧ ∃ psr, ps.getReader = some psr
              ∧ psr.drain [200000] = some (first ++ first, true)
              ∧ first ++ first ≠ strayData first := by
  intro first
  have hfirst : first.length = blockPartSizeBytes := length_replicate
  have hchunks := chunks_stray hfirst
  obtain ⟨full, hfull, hheader⟩ := @fromData_header (straySum first)
    (strayData first) blockPartSizeBytes (by decide)
    (by rw [strayData, length_append, hfirst]; decide)
  rw [← length_chunks, hchunks, stray_root (ne_of_length hfirst)] at hheader
  refine ⟨hchunks ▸ straySum_free (ne_of_length hfirst), strayParts_valid hfirst, full, hfull, ?_⟩
  have hps := receive_stray hfirst
  rw [hheader]
  simp only
  rw [show [first, [2]].length = 2 from rfl, hps]
  refine ⟨by simp, ?_, rfl, ⟨first, [some (strayPart first 1)]⟩, rfl, ?_, ?_⟩
  · have hsecond : [2] = chunk (strayData first) blockPartSizeBytes 1 :=
      chunks_getElem? (by rw [hchunks]; rfl)
    rw [← hsecond]
    intro h
    have hlen := hfirst
    rw [show first = [2] from h] at hlen
    exact absurd hlen (by decide)
  · have hrest : rest ⟨first, [some (strayPart first 1)]⟩ = first ++ first := by
      simp [rest, strayPart]
    have hlen : (first ++ first).length = 131072 := by
      rw [length_append, hfirst]
      rfl
    rw [drain_spec _ (by simp) (by simp [PartSetReader.Full]),
      hrest, take_of_length_le (by rw [hlen]; decide), hlen]
    rfl
  intro h
  have hlen := congrArg length h
  rw [strayData, length_append, length_append, hfirst] at hlen
  exact absurd hlen (by decide)

end HetuEngine.Comet
