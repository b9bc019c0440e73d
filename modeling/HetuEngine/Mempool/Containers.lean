/-
The two containers of the mempool: the linked list of transactions
(libs/clist/clist.go) and the cache of transactions seen
(mempool/cache.go).

# Elements

A list element is a pointer that its users keep: the mempool finds elements
through a map from keys, and the recheck walks along them with a cursor.
Here an element is the number of elements made before it, so the numbers
increase along the list. A removed element keeps its value and its `next`
pointer, which `removed` remembers: a cursor on it can still move.
-/
import HetuEngine.Lib.Assoc

namespace HetuEngine.Mempool

open Lib

-- ==== CList

/-- A linked list (`clist.CList`): the elements in order, the number of
elements made so far, and the value and `next` of each removed one. -/
structure CList (α : Type) where
  elems : List (Nat × α)
  fresh : Nat
  removed : HashMap Nat (α × Option Nat)
  increasing : (elems.map Prod.fst).Pairwise (· < ·)
  lt_fresh : ∀ e ∈ elems.map Prod.fst, e < fresh

namespace CList

variable {α : Type}

def new : CList α where
  elems := []
  fresh := 0
  removed := ∅
  increasing := List.Pairwise.nil
  lt_fresh := fun _ h => nomatch h

def values (l : CList α) : List α := l.elems.map Prod.snd

def len (l : CList α) : Nat := l.elems.length

def front (l : CList α) : Option Nat := l.elems.head?.map Prod.fst

def back (l : CList α) : Option Nat := l.elems.getLast?.map Prod.fst

def live (l : CList α) (e : Nat) : Bool := l.elems.any fun x => x.1 = e

def value (l : CList α) (e : Nat) : Option α :=
  match l.elems.find? fun x => x.1 = e with
  | some x => some x.2
  | none => (l.removed.lookup e).map Prod.fst

/-- The element behind `e` in a list of elements. -/
def after (e : Nat) : List (Nat × α) → Option Nat
  | [] => none
  | x :: xs => if x.1 = e then xs.head?.map Prod.fst else after e xs

def next (l : CList α) (e : Nat) : Option Nat :=
  if l.live e then after e l.elems else (l.removed.lookup e).bind Prod.snd

/-- The elements from a cursor on, following `Next` at most `n` times. -/
def chain (l : CList α) : Nat → Option Nat → List (Nat × α)
  | 0, _ => []
  | _ + 1, none => []
  | n + 1, some e =>
    match l.value e with
    | none => []
    | some v => (e, v) :: chain l n (l.next e)

/-- `PushBack`: the list and the new element. -/
def pushBack (l : CList α) (v : α) : CList α × Nat :=
  ({ l with
      elems := l.elems ++ [(l.fresh, v)]
      fresh := l.fresh + 1
      increasing := by
        rw [List.map_append, List.pairwise_append]
        refine ⟨l.increasing, List.pairwise_singleton _ _, ?_⟩
        intro a ha b hb
        rw [List.map_singleton, List.mem_singleton] at hb
        subst hb
        exact l.lt_fresh a ha
      lt_fresh := by
        intro e he
        rw [List.map_append, List.mem_append, List.map_singleton, List.mem_singleton] at he
        rcases he with he | he
        · exact Nat.lt_succ_of_lt (l.lt_fresh e he)
        subst he
        exact Nat.lt_succ_self _ },
    l.fresh)

def remove (l : CList α) (e : Nat) : CList α :=
  { l with
    elems := l.elems.filter fun x => x.1 ≠ e
    removed :=
      match l.value e with
      | some v => l.removed.insert e (v, l.next e)
      | none => l.removed
    increasing := l.increasing.sublist (List.filter_sublist.map _)
    lt_fresh := fun x hx => l.lt_fresh x ((List.filter_sublist.map _).subset hx) }

def removeAll (l : CList α) : CList α := (l.elems.map Prod.fst).foldl remove l

lemma values_pushBack (l : CList α) (v : α) :
    (l.pushBack v).1.values = l.values ++ [v] := by
  unfold values pushBack
  rw [List.map_append]
  rfl

variable {e : Nat} {l : CList α}

lemma mem_elems_remove {x : Nat × α} :
    x ∈ (l.remove e).elems ↔ x ∈ l.elems ∧ x.1 ≠ e := by
  unfold remove
  simp

lemma elems_unique {v w : α} (hv : (e, v) ∈ l.elems) (hw : (e, w) ∈ l.elems) :
    v = w := by
  have hnd : (l.elems.map Prod.fst).Nodup := l.increasing.imp fun h => Nat.ne_of_lt h
  have h := List.inj_on_of_nodup_map hnd hv hw rfl
  cases h
  rfl

variable {v : α}

lemma live_of_mem (h : (e, v) ∈ l.elems) : l.live e = true := by
  unfold live
  rw [List.any_eq_true]
  exact ⟨(e, v), h, by simp⟩

lemma value_of_mem (h : (e, v) ∈ l.elems) : l.value e = some v := by
  unfold value
  cases hf : l.elems.find? fun x => x.1 = e with
  | none =>
    have hnone := List.find?_eq_none.mp hf (e, v) h
    simp at hnone
  | some x =>
    have hx := List.find?_some hf
    have hmem := List.mem_of_find?_eq_some hf
    obtain ⟨e', w⟩ := x
    simp only [decide_eq_true_eq] at hx
    subst hx
    rw [elems_unique hmem h]

variable {before after : List (Nat × α)}

lemma ne_of_split (h : l.elems = before ++ (e, v) :: after) :
    (∀ x ∈ before, x.1 ≠ e) ∧ ∀ x ∈ after, x.1 ≠ e := by
  have hinc := l.increasing
  rw [h, List.map_append, List.map_cons, List.pairwise_append] at hinc
  obtain ⟨-, hafter, hbefore⟩ := hinc
  exact ⟨fun x hx => Nat.ne_of_lt (hbefore x.1 (List.mem_map_of_mem hx) e
      (List.mem_cons_self ..)), fun x hx => Nat.ne_of_gt
    (List.rel_of_pairwise_cons hafter (List.mem_map_of_mem hx))⟩

lemma elems_remove (h : l.elems = before ++ (e, v) :: after) :
    (l.remove e).elems = before ++ after := by
  obtain ⟨hb, ha⟩ := ne_of_split h
  unfold remove
  simp only [h, List.filter_append]
  rw [List.filter_cons_of_neg (by simp), List.filter_eq_self.mpr fun x hx => by simpa using hb x hx,
    List.filter_eq_self.mpr fun x hx => by simpa using ha x hx]

lemma elems_foldl_remove (es : List Nat) (l : CList α) :
    (es.foldl remove l).elems = l.elems.filter fun x => x.1 ∉ es := by
  induction es generalizing l with
  | nil => simp
  | cons e es ih =>
    rw [List.foldl_cons, ih]
    unfold remove
    simp only [List.filter_filter]
    refine List.filter_congr fun x _ => ?_
    simp [Bool.and_comm]

lemma elems_removeAll (l : CList α) : l.removeAll.elems = [] := by
  unfold removeAll
  rw [elems_foldl_remove, List.filter_eq_nil_iff]
  intro x hx
  have hmem : x.1 ∈ l.elems.map Prod.fst := List.mem_map_of_mem hx
  simpa using hmem

end CList

-- ==== cache

variable {K : Type} [DecidableEq K]

/-- `LRUTxCache`: the keys in a list, the oldest first, and a map from the
keys to their list elements. -/
structure LRUTxCache (K : Type) where
  size : Nat
  cacheMap : HashMap K Nat
  list : List (Nat × K)
  fresh : Nat

namespace LRUTxCache

def new (cacheSize : Nat) : LRUTxCache K := ⟨cacheSize, ∅, [], 0⟩

def reset (c : LRUTxCache K) : LRUTxCache K := { c with cacheMap := ∅, list := [] }

def unlink (e : Nat) (l : List (Nat × K)) : List (Nat × K) := l.filter fun x => x.1 ≠ e

def moveToBack (e : Nat) (l : List (Nat × K)) : List (Nat × K) :=
  unlink e l ++ l.filter fun x => x.1 = e

/-- Drop the oldest key, if there is one. -/
def evictFront (c : LRUTxCache K) : LRUTxCache K :=
  match c.list with
  | [] => c
  | (_, frontKey) :: rest => { c with cacheMap := c.cacheMap.erase frontKey, list := rest }

/-- `Push`: whether the key is new, and the cache afterwards. -/
def push (key : K) (c : LRUTxCache K) : Bool × LRUTxCache K :=
  match c.cacheMap.lookup key with
  | some moved => (false, { c with list := moveToBack moved c.list })
  | none =>
    let c := if c.size ≤ c.list.length then c.evictFront else c
    (true, { c with
      cacheMap := c.cacheMap.insert key c.fresh
      list := c.list ++ [(c.fresh, key)]
      fresh := c.fresh + 1 })

def remove (key : K) (c : LRUTxCache K) : LRUTxCache K :=
  { c with
    cacheMap := c.cacheMap.erase key
    list :=
      match c.cacheMap.lookup key with
      | some e => unlink e c.list
      | none => c.list }

end LRUTxCache

/-- The cache of a mempool: `LRUTxCache`, or `NopTxCache` when the
configured size is not positive. -/
inductive TxCache (K : Type) where
  | lru (c : LRUTxCache K)
  | nop

namespace TxCache

/-- The cache `NewCListMempool` makes. -/
def new (cacheSize : Int) : TxCache K := if 0 < cacheSize then .lru (.new cacheSize.toNat) else .nop

def reset : TxCache K → TxCache K
  | .lru c => .lru c.reset
  | .nop => .nop

def push (key : K) : TxCache K → Bool × TxCache K
  | .lru c => ((c.push key).1, .lru (c.push key).2)
  | .nop => (true, .nop)

def remove (key : K) : TxCache K → TxCache K
  | .lru c => .lru (c.remove key)
  | .nop => .nop

end TxCache

end HetuEngine.Mempool
