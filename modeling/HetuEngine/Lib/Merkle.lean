/-
Merkle trees over a list, split at the largest power of two below its
length, and the proofs that an item stands at a position.

A `Scheme` gives the hash of the empty list, of an item and of a node from
those of its two children. The number of items fixes the shape of the tree,
so a proof is only the hashes of the siblings on the way up, the one next to
the leaf first, and `climb` computes a root from the hash of a leaf, its
position, the number of items and these siblings.

# Completeness and soundness

The siblings that `trails` gives for an item lead to the root
(`climb_trails`). `climb_sound` is about arbitrary siblings. It needs that a
node of the tree determines its children, among the values that can occur as
hashes, so that a hash of fixed length can meet the assumption; the number of
items says at which depth the leaf is.

# Level by level

The root can also be computed from the leaves up, pairing the nodes of each
level. The largest power of two below a length is twice that of the level
above (`splitPoint_half`), so both trees are split at the same items.
-/
import Mathlib.Algebra.Group.Nat.Defs
import Mathlib.Data.Nat.Log
import Mathlib.Data.List.Basic

namespace HetuEngine.Lib.Merkle

variable {α H : Type} {n : Nat}

/-- The hashes that a tree is made with. -/
structure Scheme (α H : Type) where
  empty : H
  leaf : α → H
  inner : H → H → H

-- ==== Where a list is split

/-- The largest power of two below `n`, for `n` at least two. -/
def splitPoint (n : Nat) : Nat :=
  let k := 2 ^ Nat.log2 n
  if k = n then k / 2 else k

lemma splitPoint_lt (hn : 2 ≤ n) : splitPoint n < n := by
  have hle : 2 ^ Nat.log2 n ≤ n := Nat.log2_self_le (by omega)
  unfold splitPoint
  simp only
  split
  · omega
  omega

lemma splitPoint_pos (hn : 2 ≤ n) : 0 < splitPoint n := by
  have hpos : 0 < 2 ^ Nat.log2 n := Nat.two_pow_pos _
  unfold splitPoint
  simp only
  split
  · omega
  exact hpos

lemma splitPoint_spec (hn : 2 ≤ n) :
    ∃ j, splitPoint n = 2 ^ j ∧ 2 ^ j < n ∧ n ≤ 2 ^ (j + 1) := by
  have hlt := splitPoint_lt hn
  have hlog : n < 2 ^ (Nat.log2 n + 1) := Nat.lt_log2_self
  unfold splitPoint at hlt ⊢
  simp only at hlt ⊢
  split at hlt
  · next h =>
    obtain ⟨j, hj⟩ : ∃ j, Nat.log2 n = j + 1 := by
      refine Nat.exists_eq_succ_of_ne_zero fun hzero => ?_
      rw [hzero] at h
      omega
    rw [if_pos h]
    rw [hj] at h hlt ⊢
    have hhalf : 2 ^ (j + 1) / 2 = 2 ^ j := by omega
    exact ⟨j, hhalf, hhalf ▸ hlt, h.ge⟩
  next h => exact ⟨_, if_neg h, hlt, hlog.le⟩

def lefts (items : List α) : List α := items.take (splitPoint items.length)

def rights (items : List α) : List α := items.drop (splitPoint items.length)

lemma length_lefts {items : List α} (h : 2 ≤ items.length) :
    (lefts items).length = splitPoint items.length :=
  List.length_take_of_le (splitPoint_lt h).le

lemma length_rights (items : List α) :
    (rights items).length = items.length - splitPoint items.length :=
  List.length_drop

lemma length_lefts_lt {items : List α} (h : 2 ≤ items.length) :
    (lefts items).length < items.length := by
  rw [length_lefts h]
  exact splitPoint_lt h

lemma length_rights_lt {items : List α} (h : 2 ≤ items.length) :
    (rights items).length < items.length := by
  rw [length_rights]
  have := splitPoint_pos h
  omega

lemma tree_induction {motive : List α → Prop} (nil : motive [])
    (single : ∀ item, motive [item])
    (node : ∀ items, 2 ≤ items.length → motive (lefts items) →
      motive (rights items) → motive items)
    (items : List α) : motive items := by
  by_cases h : 2 ≤ items.length
  · have := length_lefts_lt h
    have := length_rights_lt h
    exact node items h (tree_induction nil single node _) (tree_induction nil single node _)
  match items with
  | [] => exact nil
  | [item] => exact single item
  | _ :: _ :: _ => simp at h
termination_by items.length

-- ==== Roots and proofs

def root (s : Scheme α H) (items : List α) : H :=
  if h : 2 ≤ items.length then
    have := length_lefts_lt h
    have := length_rights_lt h
    s.inner (root s (lefts items)) (root s (rights items))
  else
    match items with
    | [] => s.empty
    | item :: _ => s.leaf item
termination_by items.length

/-- For each item its hash and the siblings on its way up, and the root. -/
def trails (s : Scheme α H) (items : List α) : List (H × List H) × H :=
  if h : 2 ≤ items.length then
    have := length_lefts_lt h
    have := length_rights_lt h
    let left := trails s (lefts items)
    let right := trails s (rights items)
    (left.1.map (fun trail => (trail.1, trail.2 ++ [right.2]))
      ++ right.1.map (fun trail => (trail.1, trail.2 ++ [left.2])), s.inner left.2 right.2)
  else
    match items with
    | [] => ([], s.empty)
    | item :: _ => ([(s.leaf item, [])], s.leaf item)
termination_by items.length

/-- The root that a leaf and the siblings on its way up amount to. -/
def climb (s : Scheme α H) (leafHash : H) (index total : Nat) (aunts : List H) : Option H :=
  if total ≤ index then none
  else if 2 ≤ total then
    aunts.getLast?.bind fun aunt =>
      if index < splitPoint total then
        (climb s leafHash index (splitPoint total) aunts.dropLast).map fun left => s.inner left aunt
      else
        (climb s leafHash (index - splitPoint total) (total - splitPoint total) aunts.dropLast).map
          fun right => s.inner aunt right
  else if aunts = [] then some leafHash
  else none
termination_by total
decreasing_by
  · exact splitPoint_lt ‹2 ≤ total›
  exact Nat.sub_lt (Nat.lt_of_lt_of_le Nat.two_pos ‹2 ≤ total›) (splitPoint_pos ‹2 ≤ total›)

variable {s : Scheme α H} {V : H → Prop} {leafHash hash : H} {index total : Nat} {aunts : List H}

lemma root_node {items : List α} (h : 2 ≤ items.length) :
    root s items = s.inner (root s (lefts items)) (root s (rights items)) := by
  rw [root]
  exact dif_pos h

@[simp] lemma root_single (s : Scheme α H) (item : α) :
    root s [item] = s.leaf item := by
  rw [root]
  exact dif_neg (by simp)

lemma trails_snd (s : Scheme α H) (items : List α) :
    (trails s items).2 = root s items := by
  induction items using tree_induction with
  | nil | single item => rw [trails, root]; rfl
  | node items h ihl ihr => rw [trails, dif_pos h, root_node h, ← ihl, ← ihr]

lemma climb_single (s : Scheme α H) (leafHash : H) (index : Nat) (aunts : List H) :
    climb s leafHash index 1 aunts = if index = 0 ∧ aunts = [] then some leafHash else none := by
  rw [climb]
  by_cases hi : index = 0
  · subst hi
    by_cases ha : aunts = []
    · subst ha
      rfl
    simp [ha]
  rw [if_pos (by omega), if_neg (fun h => hi h.1)]

/-- What a walk through an inner node amounts to. -/
lemma climb_node (ht : 2 ≤ total)
    (h : climb s leafHash index total aunts = some hash) :
    ∃ front aunt below, aunts = front ++ [aunt]
      ∧ ((index < splitPoint total
        ∧ climb s leafHash index (splitPoint total) front = some below
        ∧ hash = s.inner below aunt)
        ∨ (splitPoint total ≤ index
          ∧ climb s leafHash (index - splitPoint total)
            (total - splitPoint total) front = some below
          ∧ hash = s.inner aunt below)) := by
  rw [climb] at h
  split at h
  · cases h
  obtain ⟨aunt, hlast, h⟩ := Option.bind_eq_some_iff.mp h
  have happ : aunts = aunts.dropLast ++ [aunt] := (List.dropLast_append_getLast? aunt hlast).symm
  split at h
  · next hi =>
    obtain ⟨below, hbelow, rfl⟩ := Option.map_eq_some_iff.mp h
    exact ⟨_, _, below, happ, .inl ⟨hi, hbelow, rfl⟩⟩
  next hi =>
  obtain ⟨below, hbelow, rfl⟩ := Option.map_eq_some_iff.mp h
  exact ⟨_, _, below, happ, .inr ⟨not_lt.mp hi, hbelow, rfl⟩⟩

-- ==== Completeness

lemma climb_left (hi : index < splitPoint total) (ht : 2 ≤ total) (aunt : H) :
    climb s leafHash index total (aunts ++ [aunt])
      = (climb s leafHash index (splitPoint total) aunts).map fun left =>
        s.inner left aunt := by
  have := splitPoint_lt ht
  rw [climb, if_neg (by omega), if_pos ht]
  simp [hi]

lemma climb_right (hi : splitPoint total ≤ index) (hlt : index < total)
    (ht : 2 ≤ total) (aunt : H) :
    climb s leafHash index total (aunts ++ [aunt])
    = (climb s leafHash (index - splitPoint total) (total - splitPoint total)
        aunts).map fun right => s.inner aunt right := by
  rw [climb, if_neg (by omega), if_pos ht]
  simp [not_lt.mpr hi]

lemma length_trails (s : Scheme α H) (items : List α) :
    (trails s items).1.length = items.length := by
  induction items using tree_induction with
  | nil | single item => rw [trails]; rfl
  | node items h ihl ihr =>
    rw [trails, dif_pos h]
    have := splitPoint_lt h
    simp only [List.length_append, List.length_map, ihl, ihr, length_lefts h, length_rights]
    omega

/-- The trail of an item leads from its hash to the root. -/
lemma climb_trails (s : Scheme α H) {items : List α} {item : α}
    (hitem : items[index]? = some item) :
    ∃ aunts, (trails s items).1[index]? = some (s.leaf item, aunts)
      ∧ climb s (s.leaf item) index items.length aunts
        = some (root s items) := by
  induction items using tree_induction generalizing index with
  | nil => cases hitem
  | single leaf =>
    obtain ⟨hi, rfl⟩ := List.getElem?_eq_some_iff.mp hitem
    obtain rfl : index = 0 := by simpa using hi
    refine ⟨[], ?_, ?_⟩
    · rw [trails]
      rfl
    rw [List.length_singleton, climb_single, root_single]
    rfl
  | node items h ihl ihr =>
    obtain ⟨hlt, -⟩ := List.getElem?_eq_some_iff.mp hitem
    rw [trails, dif_pos h, root_node h]
    by_cases hi : index < splitPoint items.length
    · have hmem : (lefts items)[index]? = some item := by rwa [lefts, List.getElem?_take_of_lt hi]
      obtain ⟨aunts, htrail, hclimb⟩ := ihl hmem
      refine ⟨aunts ++ [(trails s (rights items)).2], ?_, ?_⟩
      · rw [List.getElem?_append_left, List.getElem?_map, htrail]
        · rfl
        rwa [List.length_map, length_trails, length_lefts h]
      rw [climb_left hi h, ← length_lefts h, hclimb, trails_snd]
      rfl
    have hge := Nat.le_of_not_lt hi
    have hmem : (rights items)[index - splitPoint items.length]? = some item := by
      rwa [rights, List.getElem?_drop, Nat.add_sub_cancel' hge]
    obtain ⟨aunts, htrail, hclimb⟩ := ihr hmem
    refine ⟨aunts ++ [(trails s (lefts items)).2], ?_, ?_⟩
    · have hlen := (length_trails s (lefts items)).trans (length_lefts h)
      rw [List.getElem?_append_right, List.length_map, hlen, List.getElem?_map, htrail]
      · rfl
      rwa [List.length_map, hlen]
    rw [climb_right hge hlt h, ← length_rights, hclimb, trails_snd]
    rfl

-- ==== Soundness

/-- The lists whose trees are subtrees of the tree over `items`. -/
inductive Subtree : (items sub : List α) → Prop
  | self (items) : Subtree items items
  | left {items sub} (h : 2 ≤ items.length) (hsub : Subtree (lefts items) sub) : Subtree items sub
  | right {items sub} (h : 2 ≤ items.length) (hsub : Subtree (rights items) sub) : Subtree items sub

/-- A node of the tree determines its children, as soon as one of the values
hashed is in `V`. -/
def Binding (s : Scheme α H) (V : H → Prop) (items : List α) : Prop :=
  ∀ sub, Subtree items sub → 2 ≤ sub.length → ∀ l r, V l ∨ V r → s.inner l r = s.inner
    (root s (lefts sub)) (root s (rights sub)) → l = root s (lefts sub) ∧ r = root s (rights sub)

/-- A walk only ever computes hashes. -/
lemma climb_value (hinner : ∀ l r, V (s.inner l r)) (hleaf : V leafHash)
    (h : climb s leafHash index total aunts = some hash) : V hash := by
  by_cases ht : 2 ≤ total
  · obtain ⟨_, aunt, below, _, ⟨_, _, rfl⟩ | ⟨_, _, rfl⟩⟩ := climb_node ht h
    · exact hinner below aunt
    exact hinner aunt below
  rw [climb] at h
  split at h
  · cases h
  split at h
  · cases h
    exact hleaf
  cases h

/-- Whatever siblings it is given, a walk from position `index` that ends at
the root of a tree started from the item at that position. -/
lemma climb_sound (hinner : ∀ l r, V (s.inner l r)) (hleaf : V leafHash)
    (items : List α) (hbind : Binding s V items)
    (hclimb : climb s leafHash index items.length aunts = some (root s items)) :
    ∃ item, items[index]? = some item ∧ leafHash = s.leaf item := by
  induction items using tree_induction generalizing index aunts with
  | nil =>
    rw [climb] at hclimb
    cases hclimb
  | single item =>
    rw [List.length_singleton, climb_single, root_single] at hclimb
    split at hclimb
    · next hi =>
      cases hclimb
      exact ⟨item, by rw [hi.1]; rfl, rfl⟩
    cases hclimb
  | node items h ihl ihr =>
    obtain ⟨front, aunt, below, rfl, hcase⟩ := climb_node h hclimb
    rw [root_node h] at hcase
    obtain ⟨hi, hbelow, hhash⟩ | ⟨hi, hbelow, hhash⟩ := hcase
    · -- The walk came from the left subtree.
      have heq := hbind items (.self items) h below aunt
        (.inl (climb_value hinner hleaf hbelow)) hhash.symm
      rw [heq.1, ← length_lefts h] at hbelow
      obtain ⟨item, hitem, hl⟩ := ihl (fun sub hsub => hbind sub (.left h hsub)) hbelow
      refine ⟨item, ?_, hl⟩
      rwa [lefts, List.getElem?_take_of_lt hi] at hitem
    -- The walk came from the right subtree.
    have heq := hbind items (.self items) h aunt below
      (.inr (climb_value hinner hleaf hbelow)) hhash.symm
    rw [heq.2, ← length_rights] at hbelow
    obtain ⟨item, hitem, hl⟩ := ihr (fun sub hsub => hbind sub (.right h hsub)) hbelow
    refine ⟨item, ?_, hl⟩
    rwa [rights, List.getElem?_drop, Nat.add_sub_cancel' hi] at hitem

-- ==== Level by level

/-- The level above: adjacent nodes are paired, and a last one without a
partner is kept. -/
def pairUp (inner : H → H → H) : List H → List H
  | [] => []
  | [last] => [last]
  | left :: right :: rest => inner left right :: pairUp inner rest

/-- The tree over hashes, which are their own leaves. -/
def Scheme.level (s : Scheme α H) : Scheme H H := { s with leaf := id }

lemma root_level (s : Scheme α H) (items : List α) :
    root s.level (items.map s.leaf) = root s items := by
  induction items using tree_induction with
  | nil => simp [root, Scheme.level]
  | single item => simp [Scheme.level]
  | node items h ihl ihr =>
    rw [root_node h, root_node (by rwa [List.length_map]), ← ihl, ← ihr]
    simp [lefts, rights, Scheme.level, List.map_take, List.map_drop]

variable {inner : H → H → H}

lemma length_pairUp (inner : H → H → H) (level : List H) :
    (pairUp inner level).length = (level.length + 1) / 2 := by
  fun_induction pairUp inner level with
  | case1 | case2 => simp
  | case3 left right rest ih =>
    simp only [List.length_cons, ih]
    omega

/-- No pair crosses an even position. -/
lemma pairUp_append {level rest : List H} {k : Nat}
    (h : level.length = 2 * k) :
    pairUp inner (level ++ rest)
      = pairUp inner level ++ pairUp inner rest := by
  fun_induction pairUp inner level generalizing k with
  | case1 => rfl
  | case2 => simp at h; omega
  | case3 left right level ih =>
    simp only [List.length_cons] at h
    rw [List.cons_append, List.cons_append, pairUp, List.cons_append, ih (k := k - 1) (by omega)]

lemma splitPoint_half (hn : 3 ≤ n) :
    splitPoint n = 2 * splitPoint ((n + 1) / 2) := by
  obtain ⟨i, hi, hilt, hile⟩ := splitPoint_spec (n := n) (by omega)
  obtain ⟨j, hj, hjlt, hjle⟩ := splitPoint_spec (n := (n + 1) / 2) (by omega)
  have hle : j < i := by
    have : 2 ^ (j + 1) < 2 ^ (i + 1) := by omega
    exact Nat.lt_of_succ_lt_succ ((Nat.pow_lt_pow_iff_right (by decide)).mp this)
  have hge : i < j + 2 := by
    have : 2 ^ i < 2 ^ (j + 2) := by
      rw [pow_add]
      omega
    exact (Nat.pow_lt_pow_iff_right (by decide)).mp this
  obtain rfl : i = j + 1 := by omega
  rw [hi, hj, pow_succ, mul_comm]

/-- A level has the root of the one above it. -/
lemma root_pairUp (s : Scheme α H) (level : List H) :
    root s.level (pairUp s.inner level) = root s.level level := by
  induction level using tree_induction with
  | nil | single => rfl
  | node level h ihl ihr =>
    by_cases htwo : level.length = 2
    · match level, htwo with
      | [left, right], _ =>
        have hsplit : splitPoint 2 = 1 := by decide
        simp [pairUp, root_node, lefts, rights, hsplit, Scheme.level]
    have hhalf := splitPoint_half (n := level.length) (by omega)
    have hlen := length_pairUp s.inner level
    have hsplit : pairUp s.inner (lefts level) ++ pairUp s.inner (rights level)
        = pairUp s.inner level := by
      rw [← pairUp_append ((length_lefts h).trans hhalf)]
      exact congrArg _ (List.take_append_drop _ _)
    have hk : (pairUp s.inner (lefts level)).length = splitPoint (pairUp s.inner level).length := by
      rw [length_pairUp, length_lefts h, hlen]
      omega
    have hl : lefts (pairUp s.inner level) = pairUp s.inner (lefts level) := by
      rw [lefts, ← hk, ← hsplit, List.take_left]
    have hr : rights (pairUp s.inner level) = pairUp s.inner (rights level) := by
      rw [rights, ← hk, ← hsplit, List.drop_left]
    rw [root_node h, root_node (by omega), hl, hr, ihl, ihr]

end HetuEngine.Lib.Merkle
