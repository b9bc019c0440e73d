/-
Merkle proofs (crypto/merkle/{hash,tree,proof}.go of hetu-cometbft).

`tmhash.Sum` is a parameter; a leaf and an inner node differ in the first
byte of what is hashed. The tree, its roots and the way up from a leaf are
those of `Lib.Merkle`; the functions here are the source's, with their checks
of signed totals and positions.

A hash of 32 bytes has collisions. What the proofs need is that no other
input hashes to what an input of the tree at hand does: `CollisionFree`.
-/
import HetuEngine.Lib.Merkle
import HetuEngine.Comet.PartSet

namespace HetuEngine.Comet

open Lib Merkle Proof

-- ==== The hashes

section

variable (sum : Bytes → Bytes)

def emptyHash : Bytes := sum []

def leafHash (leaf : Bytes) : Bytes := sum (0 :: leaf)

def innerHash (left right : Bytes) : Bytes := sum (1 :: (left ++ right))

/-- The hashes of a tree over byte slices. -/
def byteSlices : Merkle.Scheme Bytes Bytes where
  empty := emptyHash sum
  leaf := leafHash sum
  inner := innerHash sum

def hashFromByteSlices (items : List Bytes) : Bytes := Merkle.root (byteSlices sum) items

-- ==== Proofs

def proofsFromByteSlices (items : List Bytes) : Bytes × List Proof :=
  let (trails, rootHash) := Merkle.trails (byteSlices sum) items
  (rootHash, trails.zipIdx.map fun (trail, i) =>
    { total := items.length, index := i, leafHash := trail.1, aunts := trail.2 })

/-- `computeHashFromAunts`; `none` is an error. -/
def computeHashFromAunts (index total : Int) (leafHash : Bytes)
    (innerHashes : List Bytes) : Option Bytes :=
  if total ≤ index ∨ index < 0 ∨ total ≤ 0 then none
  else Merkle.climb (byteSlices sum) leafHash index.toNat total.toNat innerHashes

/-- `Proof.Verify`, without its error. A root that is empty but not nil
equals no hash either. -/
def Proof.verify (sp : Proof) (rootHash leaf : Bytes) : Bool :=
  if rootHash = [] then false
  else if sp.total < 0 then false
  else if sp.index < 0 then false
  else if sp.leafHash ≠ Comet.leafHash sum leaf then false
  else computeHashFromAunts sum sp.index sp.total sp.leafHash sp.aunts = some rootHash

-- ==== What is assumed of the hash

/-- What is hashed for the root of the tree over a list. -/
def preimage (items : List Bytes) : Bytes :=
  if 2 ≤ items.length then
    1 :: (hashFromByteSlices sum (Merkle.lefts items)
      ++ hashFromByteSlices sum (Merkle.rights items))
  else
    match items with
    | [] => []
    | item :: _ => 0 :: item

/-- Nothing else hashes to what the inputs hashed for this tree do. -/
def CollisionFree (items : List Bytes) : Prop :=
  ∀ sub, Merkle.Subtree items sub → ∀ input,
    sum input = sum (preimage sum sub) → input = preimage sum sub

end

variable {sum : Bytes → Bytes}

lemma sum_preimage (items : List Bytes) :
    sum (preimage sum items) = hashFromByteSlices sum items := by
  unfold preimage hashFromByteSlices
  split
  · next h =>
    rw [root_node h]
    rfl
  next h =>
  rw [root, dif_neg h]
  cases items with
  | nil => rfl
  | cons item rest => rfl

variable {items : List Bytes}

lemma subtree_of_mem {item : Bytes} (hmem : item ∈ items) :
    Merkle.Subtree items [item] := by
  induction items using tree_induction with
  | nil => cases hmem
  | single leaf =>
    rw [List.mem_singleton.mp hmem]
    exact .self _
  | node items h ihl ihr =>
    have happ : items = lefts items ++ rights items := (List.take_append_drop _ _).symm
    rw [happ] at hmem
    rcases List.mem_append.mp hmem with hl | hr
    · exact .left h (ihl hl)
    exact .right h (ihr hr)

lemma Proof.verify_eq_true {sp : Proof} {rootHash leaf : Bytes}
    (h : sp.verify sum rootHash leaf = true) :
    0 ≤ sp.index ∧ sp.leafHash = Comet.leafHash sum leaf
    ∧ climb (byteSlices sum) sp.leafHash sp.index.toNat sp.total.toNat
      sp.aunts = some rootHash := by
  unfold verify at h
  split at h
  · cases h
  split at h
  · cases h
  split at h
  · cases h
  split at h
  · cases h
  next hindex hleaf =>
  rw [not_not] at hleaf
  have hroot := of_decide_eq_true h
  unfold computeHashFromAunts at hroot
  split at hroot
  · cases hroot
  exact ⟨not_lt.mp hindex, hleaf, hroot⟩

lemma CollisionFree.leaf_eq {leaf item : Bytes}
    (hfree : CollisionFree sum items) (hmem : item ∈ items)
    (h : leafHash sum leaf = leafHash sum item) : leaf = item :=
  (List.cons.inj (hfree [item] (subtree_of_mem hmem) (0 :: leaf) h)).2

-- ==== A hash for two leaves

section

variable (first : Bytes)

def tagHash (tag : UInt8) : Bytes := List.replicate tmhashSize tag

/-- What the hash below tells apart: the two leaves and the root over the
two items, and anything else. -/
def strayTag (input : Bytes) : UInt8 :=
  if input = 1 :: (tagHash 1 ++ tagHash 2) then 3
  else if input = [0, 2] then 2
  else if input = 0 :: first then 1
  else 0

/-- A hash of 32 bytes, without collisions on the tree over the two. -/
def straySum (input : Bytes) : Bytes := tagHash (strayTag first input)

end

variable {first : Bytes} {α : Type}

lemma tagHash_inj {a b : UInt8} (h : tagHash a = tagHash b) : a = b :=
  List.replicate_right_injective (by decide) h

lemma lefts_pair (a b : α) : Merkle.lefts [a, b] = [a] := by
  show List.take (splitPoint 2) [a, b] = [a]
  rw [show splitPoint 2 = 1 by decide]
  rfl

lemma rights_pair (a b : α) : Merkle.rights [a, b] = [b] := by
  show List.drop (splitPoint 2) [a, b] = [b]
  rw [show splitPoint 2 = 1 by decide]
  rfl

variable {sub : List α}

lemma subtree_single {a : α} (h : Merkle.Subtree [a] sub) : sub = [a] := by
  cases h with
  | self => rfl
  | left h | right h => exact absurd h (by simp)

lemma subtree_pair {a b : α} (h : Merkle.Subtree [a, b] sub) :
    sub = [a, b] ∨ sub = [a] ∨ sub = [b] := by
  cases h with
  | self => exact .inl rfl
  | left _ h =>
    rw [lefts_pair] at h
    exact .inr (.inl (subtree_single h))
  | right _ h =>
    rw [rights_pair] at h
    exact .inr (.inr (subtree_single h))

/-- A tag other than zero belongs to one input only. -/
lemma strayTag_inj {a b : Bytes} (h : strayTag first a = strayTag first b)
    (hb : strayTag first b ≠ 0) : a = b := by
  unfold strayTag at h hb
  grind

section

variable (hfirst : first ≠ [2])

include hfirst

lemma strayTag_first : strayTag first (0 :: first) = 1 := by
  rw [strayTag, if_neg (by simp),
    if_neg fun h => hfirst (List.cons.inj h).2, if_pos rfl]

lemma stray_leaves : hashFromByteSlices (straySum first) [first] = tagHash 1
    ∧ hashFromByteSlices (straySum first) [[2]] = tagHash 2 := by
  constructor
  · exact (root_single _ _).trans (congrArg tagHash (strayTag_first hfirst))
  exact root_single _ _

lemma preimage_stray :
    preimage (straySum first) [first, [2]]
      = 1 :: (tagHash 1 ++ tagHash 2) := by
  rw [preimage, if_pos (by simp), lefts_pair, rights_pair,
    (stray_leaves hfirst).1, (stray_leaves hfirst).2]

lemma stray_root :
    hashFromByteSlices (straySum first) [first, [2]] = tagHash 3 := by
  rw [← sum_preimage, preimage_stray hfirst]
  rfl

lemma straySum_free : CollisionFree (straySum first) [first, [2]] := by
  intro sub hsub input h
  refine strayTag_inj (tagHash_inj h) ?_
  rcases subtree_pair hsub with rfl | rfl | rfl
  · rw [preimage_stray hfirst, strayTag, if_pos rfl]
    decide
  · show strayTag first (0 :: first) ≠ 0
    rw [strayTag_first hfirst]
    decide
  have htag : strayTag first [0, 2] = 2 := rfl
  show strayTag first [0, 2] ≠ 0
  rw [htag]
  decide

end

-- ==== Completeness and soundness

section

variable (hsize : ∀ input, (sum input).length = tmhashSize)
include hsize

lemma length_hashFromByteSlices (items : List Bytes) :
    (hashFromByteSlices sum items).length = tmhashSize := by
  rw [← sum_preimage]
  exact hsize _

/-- Hashes of 32 bytes without collisions determine the children of every
node. -/
lemma CollisionFree.binding (hfree : CollisionFree sum items) :
    Merkle.Binding (byteSlices sum) (fun hash => hash.length = tmhashSize)
    items := by
  intro sub hsub h l r hlr heq
  have hpre : preimage sum sub = 1 :: (hashFromByteSlices sum (lefts sub)
        ++ hashFromByteSlices sum (rights sub)) := if_pos h
  have hinput := hfree sub hsub (1 :: (l ++ r)) (by rw [hpre]; exact heq)
  rw [hpre] at hinput
  have happ := (List.cons.inj hinput).2
  -- one of the two values has the length of a hash, so the other has too
  have hlen : l.length = (hashFromByteSlices sum (lefts sub)).length := by
    have htotal := congrArg List.length happ
    simp only [List.length_append, length_hashFromByteSlices hsize] at htotal ⊢
    rcases hlr with hl | hr
    · exact hl
    omega
  exact List.append_inj happ hlen

/-- A proof that verifies against the root of a tree is about the item at its
own index. -/
lemma Proof.verify_sound {sp : Proof} {leaf : Bytes}
    (hfree : CollisionFree sum items) (htotal : sp.total = items.length)
    (h : sp.verify sum (hashFromByteSlices sum items) leaf = true) :
    0 ≤ sp.index ∧ items[sp.index.toNat]? = some leaf := by
  obtain ⟨hindex, hleaf, hroot⟩ := verify_eq_true h
  rw [htotal] at hroot
  obtain ⟨item, hitem, heq⟩ := climb_sound (V := fun hash => hash.length = tmhashSize)
    (fun _ _ => hsize _) (by rw [hleaf]; exact hsize _) items (hfree.binding hsize) hroot
  rw [hfree.leaf_eq (List.mem_of_getElem? hitem) (hleaf.symm.trans heq)]
  exact ⟨hindex, hitem⟩

lemma proofsFromByteSlices_verify {i : Nat} {item : Bytes}
    (hitem : items[i]? = some item) :
    ∃ sp : Proof, (proofsFromByteSlices sum items).2[i]? = some sp
      ∧ sp.verify sum (hashFromByteSlices sum items) item = true := by
  obtain ⟨aunts, htrail, hclimb⟩ := climb_trails (byteSlices sum) hitem
  have hlt : i < items.length := (List.getElem?_eq_some_iff.mp hitem).1
  refine ⟨⟨items.length, i, leafHash sum item, aunts⟩, ?_, ?_⟩
  · unfold proofsFromByteSlices
    rw [List.getElem?_map, List.getElem?_zipIdx, htrail]
    simp [byteSlices]
  have hroot : hashFromByteSlices sum items ≠ [] := by
    intro hnil
    have hlen := length_hashFromByteSlices hsize items
    rw [hnil] at hlen
    cases hlen
  have hcompute : computeHashFromAunts sum i items.length
      (leafHash sum item) aunts = some (hashFromByteSlices sum items) := by
    rw [computeHashFromAunts, if_neg (by omega)]
    exact hclimb
  simp [verify, hroot, hcompute]

/-- Every proof of `ProofsFromByteSlices` verifies against the root, which is
that of `HashFromByteSlices`; and with any aunts, a proof over as many items
that verifies is about the item at its index. -/
theorem merkle_proofs_complete_sound (items : List Bytes) :
    (proofsFromByteSlices sum items).1 = hashFromByteSlices sum items
      ∧ (proofsFromByteSlices sum items).2.length = items.length
      ∧ (∀ (i : Nat) (item : Bytes), items[i]? = some item →
        ∃ sp : Proof, (proofsFromByteSlices sum items).2[i]? = some sp
          ∧ sp.verify sum (hashFromByteSlices sum items) item = true)
      ∧ (CollisionFree sum items →
        ∀ (sp : Proof) (leaf : Bytes), sp.total = items.length →
          sp.verify sum (hashFromByteSlices sum items) leaf = true →
          0 ≤ sp.index ∧ items[sp.index.toNat]? = some leaf) := by
  refine ⟨trails_snd _ _, ?_, ?_, ?_⟩
  · unfold proofsFromByteSlices
    rw [List.length_map, List.length_zipIdx]
    exact length_trails _ _
  · intro i item hitem
    exact proofsFromByteSlices_verify hsize hitem
  intro hfree sp leaf htotal h
  exact verify_sound hsize hfree htotal h

omit hsize in
theorem merkle_proofs_of_seven_two : let sum := straySum [7]
    (∃ sp : Proof, (proofsFromByteSlices sum [[7], [2]]).2[1]? = some sp
      ∧ sp.verify sum (tagHash 3) [2] = true)
    ∧ ∀ (sp : Proof) (leaf : Bytes), sp.total = 2 →
      sp.verify sum (tagHash 3) leaf = true →
      0 ≤ sp.index ∧ [[7], [2]][sp.index.toNat]? = some leaf := by
  obtain ⟨-, -, hcomplete, hsound⟩ := @merkle_proofs_complete_sound
    (straySum [7]) (fun _ => List.length_replicate) [[7], [2]]
  rw [stray_root (by decide)] at hcomplete hsound
  exact ⟨hcomplete 1 [2] rfl, hsound (straySum_free (by decide))⟩

end

-- ==== The iterative root

section

variable (sum : Bytes → Bytes)

/-- The inner loop of `HashFromByteSlicesIterative`: the level in the first
`size` items is paired up in place, from the read position `rp` on to the
write position `wp`. -/
def pairPass (size : Nat) (items : List Bytes) (rp wp : Nat) : List Bytes × Nat :=
  if rp < size then
    if rp + 1 < size then
      pairPass size (items.set wp (innerHash sum (items.getD rp [])
        (items.getD (rp + 1) []))) (rp + 2) (wp + 1)
    else pairPass size (items.set wp (items.getD rp [])) (rp + 1) (wp + 1)
  else (items, wp)
termination_by size - rp

lemma pairPass_snd (size : Nat) (items : List Bytes) (rp wp : Nat) :
    (pairPass sum size items rp wp).2 = wp + (size - rp + 1) / 2 := by
  fun_induction pairPass sum size items rp wp with
  | case1 | case2 | case3 => omega

/-- The outer loop of `HashFromByteSlicesIterative`. -/
def rootOfLevels (size : Nat) (items : List Bytes) : Bytes :=
  if h : 2 ≤ size then
    have : (pairPass sum size items 0 0).2 < size := by
      rw [pairPass_snd]
      omega
    rootOfLevels (pairPass sum size items 0 0).2 (pairPass sum size items 0 0).1
  else if size = 0 then emptyHash sum
  else items.getD 0 []

def hashFromByteSlicesIterative (input : List Bytes) : Bytes :=
  rootOfLevels sum input.length (input.map (leafHash sum))

end

lemma take_written {wp : Nat} (h : wp < items.length) (hash : Bytes) :
    (items.set wp hash).take (wp + 1) = items.take wp ++ [hash] := by
  rw [List.take_succ_eq_append_getElem (by rwa [List.length_set]), List.getElem_set_self,
    List.take_set_of_le (le_refl _)]

lemma drop_read {size rp : Nat} (hrp : rp < size)
    (hsize : size ≤ items.length) :
    (items.take size).drop rp
      = items.getD rp [] :: (items.take size).drop (rp + 1) := by
  rw [List.drop_eq_getElem_cons (by rw [List.length_take]; omega), List.getElem_take]
  simp [List.getD, Nat.lt_of_lt_of_le hrp hsize]

/-- The write position stays behind, so that what is read is still the
level. -/
lemma pairPass_take {size rp wp : Nat} (hpos : wp ≤ rp) (hsize : size ≤ items.length) :
    let pass := pairPass sum size items rp wp
    pass.1.length = items.length ∧ pass.1.take pass.2 = items.take wp
      ++ pairUp (innerHash sum) ((items.take size).drop rp) := by
  intro pass
  fun_induction pairPass sum size items rp wp with
  | case1 items rp wp hrp hrp' ih =>
    obtain ⟨hlen, heq⟩ := ih (by omega) (by rwa [List.length_set])
    refine ⟨hlen.trans List.length_set, heq.trans ?_⟩
    rw [take_written (by omega), List.take_set, List.drop_set_of_lt (by omega),
      drop_read hrp hsize, drop_read hrp' hsize, pairUp,
      List.append_assoc, List.singleton_append]
  | case2 items rp wp hrp hrp' ih =>
    obtain ⟨hlen, heq⟩ := ih (by omega) (by rwa [List.length_set])
    refine ⟨hlen.trans List.length_set, heq.trans ?_⟩
    have hend (level : List Bytes) (h : level.length ≤ size) :
        level.drop (rp + 1) = [] := List.drop_of_length_le (by omega)
    rw [take_written (by omega), drop_read hrp hsize,
      hend _ (List.length_take_le _ _), hend _ (List.length_take_le _ _)]
    simp [pairUp]
  | case3 items rp wp hrp =>
    have hend : (items.take size).drop rp = [] :=
      List.drop_of_length_le ((List.length_take_le _ _).trans (Nat.le_of_not_lt hrp))
    rw [hend, pairUp, List.append_nil]
    exact ⟨rfl, rfl⟩

lemma rootOfLevels_eq {size : Nat} (hsize : size ≤ items.length) :
    rootOfLevels sum size items
      = Merkle.root (byteSlices sum).level (items.take size) := by
  fun_induction rootOfLevels sum size items with
  | case1 size items h hlt ih =>
    obtain ⟨hlen, htake⟩ := @pairPass_take sum _ _ 0 0 (Nat.le_refl 0) hsize
    rw [ih (by omega), htake]
    exact root_pairUp (byteSlices sum) _
  | case2 => rw [List.take_zero, Merkle.root]; rfl
  | case3 size items h h' =>
    obtain rfl : size = 1 := by omega
    have hread := drop_read (Nat.zero_lt_one) hsize
    rw [List.drop_zero] at hread
    rw [hread]
    simp [Merkle.Scheme.level]

/-- The two ways to compute a root agree. -/
theorem hashFromByteSlicesIterative_eq (input : List Bytes) :
    hashFromByteSlicesIterative sum input = hashFromByteSlices sum input := by
  unfold hashFromByteSlicesIterative hashFromByteSlices
  rw [rootOfLevels_eq (List.length_map _).ge, List.take_of_length_le (List.length_map _).le]
  exact root_level (byteSlices sum) input

end HetuEngine.Comet
