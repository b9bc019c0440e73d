/-
What the cache of transactions seen holds.

An operation leaves the last `size` keys of those it would leave without a
limit. A key that was pushed out does not come back when a key that is more
recent is removed, so the cache may have room while it lacks a recent key.
-/
import Mathlib.Data.List.DropRight
import HetuEngine.Mempool.Pool

namespace HetuEngine.Mempool

open Lib List AList

inductive CacheOp (K : Type) where
  | push (key : K)
  | remove (key : K)
  | reset

namespace CacheOp

variable {K : Type} {key : K} {l r : List K} {n : Nat} {op : CacheOp K} {ops : List (CacheOp K)}

lemma rtake_of_length_le (h : l.length ≤ n) : l.rtake n = l := by
  rw [rtake, Nat.sub_eq_zero_of_le h, drop_zero]

/-- The limit takes the keys that are not among the `n` most recent of all. -/
lemma mem_rtake (h : l <:+ r) :
    key ∈ l.rtake n ↔ key ∈ l ∧ key ∈ r.rtake n := by
  obtain ⟨older, rfl⟩ := h
  -- either the limit spares all of `l`, or it takes all of `older`
  rcases Nat.le_total l.length n with hle | hle
  · rw [rtake_of_length_le hle, rtake, drop_append]
    have hzero : (older ++ l).length - n - older.length = 0 := by grind
    grind
  have heq : l.rtake n = (older ++ l).rtake n := by
    rw [rtake, rtake, length_append, Nat.add_sub_assoc hle, drop_append]
    simp
  rw [heq, and_iff_right_of_imp]
  exact fun hmem => mem_of_mem_drop (heq ▸ hmem)

variable [DecidableEq K]

/-- What an operation makes of the keys, the most recent last, if there is no
limit. -/
def touch (keys : List K) : CacheOp K → List K
  | push key => keys.erase key ++ [key]
  | remove key => keys.erase key
  | reset => []

/-- The keys that were pushed and not removed since. -/
def recent (ops : List (CacheOp K)) : List K := ops.foldl touch []

lemma touch_nodup (h : l.Nodup) (op : CacheOp K) : (touch l op).Nodup := by
  cases op <;> grind [touch]

lemma touch_suffix (h : l <:+ r) (hr : r.Nodup) (op : CacheOp K) :
    touch l op <:+ touch r op := by
  obtain ⟨older, rfl⟩ := h
  have herase : ∀ key, l.erase key <:+ (older ++ l).erase key := by
    intro key
    rw [erase_append]
    split
    next hmem =>
      rw [erase_of_not_mem (disjoint_of_nodup_append hr hmem)]
      exact suffix_append ..
    exact suffix_append ..
  cases op with
  | push key => exact suffix_append_self_iff.mpr (herase key)
  | remove key => exact herase key
  | reset => exact suffix_rfl

lemma mem_touch (hr : r.Nodup) (hkey : key ∈ touch r op) :
    key ∈ touch l op ↔ op = push key ∨ key ∈ l := by
  cases op <;> grind [touch]

/-- The key was pushed, and has been one of the `n` most recent ever since. -/
def Kept (n : Nat) (ops : List (CacheOp K)) (key : K) : Prop :=
  ∃ before after, ops = before ++ push key :: after ∧
    ∀ now, now <+: after → key ∈ (recent (before ++ push key :: now)).rtake n

lemma kept_concat :
    Kept n (ops ++ [op]) key
      ↔ (op = push key ∨ Kept n ops key)
        ∧ key ∈ (recent (ops ++ [op])).rtake n := by
  constructor
  · rintro ⟨before, after, heq, hkept⟩
    refine ⟨?_, heq ▸ hkept after prefix_rfl⟩
    rcases eq_nil_or_concat' after with rfl | ⟨after, op', rfl⟩
    · exact .inl (by simpa using (append_inj' heq rfl).2)
    rw [← cons_append, ← append_assoc] at heq
    obtain ⟨rfl, -⟩ := append_inj' heq rfl
    exact .inr ⟨before, after, rfl, fun now hnow => hkept now (hnow.trans (prefix_append ..))⟩
  rintro ⟨rfl | ⟨before, after, rfl, hkept⟩, hnow⟩
  · refine ⟨ops, [], rfl, fun now hprefix => ?_⟩
    rwa [prefix_nil.mp hprefix]
  refine ⟨before, after ++ [op], by simp, fun now hprefix => ?_⟩
  rcases prefix_concat_iff.mp hprefix with rfl | hprefix
  · simpa using hnow
  exact hkept now hprefix

end CacheOp

namespace LRUTxCache

open CacheOp

variable {K : Type} [DecidableEq K] {key : K} {c : LRUTxCache K} {e n : Nat}

def keys (c : LRUTxCache K) : List K := c.list.map Prod.snd

def exec (c : LRUTxCache K) : CacheOp K → LRUTxCache K
  | .push key => (c.push key).2
  | .remove key => c.remove key
  | .reset => c.reset

def run (cacheSize : Nat) (ops : List (CacheOp K)) : LRUTxCache K :=
  ops.foldl exec (new cacheSize)

/-- The map leads to the elements of the list. -/
structure Linked (c : LRUTxCache K) : Prop where
  lookup : ∀ {key e}, c.cacheMap.lookup key = some e ↔ (e, key) ∈ c.list
  keys : c.keys.Nodup
  elements : (c.list.map Prod.fst).Nodup
  lt_fresh : ∀ x ∈ c.list, x.1 < c.fresh

variable (h : c.Linked)

include h

lemma lookup_eq_none : c.cacheMap.lookup key = none ↔ key ∉ c.keys := by
  simp [Option.eq_none_iff_forall_not_mem, keys, h.lookup]

lemma push_fst : (c.push key).1 = true ↔ key ∉ c.keys := by
  rw [← lookup_eq_none h, push]
  cases c.cacheMap.lookup key <;> simp

section

variable {before after : List (Nat × K)} (hsplit : c.list = before ++ (e, key) :: after)

include hsplit

lemma unlink_eq : unlink e c.list = before ++ after := by
  have helements := h.elements
  have hne : ∀ x ∈ before ++ after, decide (x.1 ≠ e) = true := by grind
  rw [← filter_eq_self.mpr hne]
  simp [unlink, hsplit]

lemma keys_erase : c.keys.erase key = (before ++ after).map Prod.snd := by
  have hkeys := h.keys
  grind [keys]

/-- A key goes, the oldest or one that is removed. -/
lemma linked_erase :
    Linked { c with cacheMap := c.cacheMap.erase key, list := before ++ after } := by
  obtain ⟨hlookup, hkeys, helements, hfresh⟩ := h
  refine ⟨fun {key' e'} => ?_, ?_, ?_, ?_⟩
  · by_cases heq : key' = key <;> grind [keys, lookup_erase, lookup_erase_ne]
  all_goals grind [keys]

lemma linked_moveToBack : moveToBack e c.list = before ++ after ++ [(e, key)]
    ∧ Linked { c with list := before ++ after ++ [(e, key)] } := by
  obtain ⟨hlookup, hkeys, helements, hfresh⟩ := h
  refine ⟨?_, ?_, ?_, ?_, ?_⟩
  · rw [moveToBack, unlink_eq ⟨hlookup, hkeys, helements, hfresh⟩ hsplit]
    have hne : ∀ x ∈ before ++ after, ¬decide (x.1 = e) = true := by grind
    have hnil := append_eq_nil_iff.mp (filter_append .. ▸ filter_eq_nil_iff.mpr hne)
    simp [hsplit, hnil]
  all_goals grind [keys]

end

lemma linked_pushBack (hkey : key ∉ c.keys) :
    Linked { c with
      cacheMap := c.cacheMap.insert key c.fresh
      list := c.list ++ [(c.fresh, key)]
      fresh := c.fresh + 1 } := by
  obtain ⟨hlookup, hkeys, helements, hfresh⟩ := h
  refine ⟨fun {key' e} => ?_, ?_, ?_, ?_⟩
  · by_cases heq : key' = key <;> grind [keys, lookup_insert, lookup_insert_ne]
  all_goals grind [keys]

/-- An operation leaves the last keys of those it would leave without a limit. -/
lemma linked_exec (hsize : c.size = n + 1) (hlen : c.keys.length ≤ n + 1)
    (op : CacheOp K) :
    (c.exec op).Linked ∧ (c.exec op).size = n + 1
      ∧ (c.exec op).keys = (touch c.keys op).rtake (n + 1) := by
  cases op with
  | push key =>
    rw [touch, rtake_concat_succ]
    simp only [exec, push]
    cases he : c.cacheMap.lookup key with
    | some e =>
      obtain ⟨before, after, hsplit⟩ := append_of_mem (h.lookup.mp he)
      obtain ⟨hmoved, hlinked⟩ := linked_moveToBack h hsplit
      dsimp only
      rw [hmoved, keys_erase h hsplit, rtake_of_length_le]
      · exact ⟨hlinked, hsize, map_append⟩
      simp only [keys, hsplit, length_map, length_append, length_cons] at hlen ⊢
      omega
    | none =>
      have hkey := (lookup_eq_none h).mp he
      have hlength : c.keys.length = c.list.length := length_map ..
      rw [erase_of_not_mem hkey]
      dsimp only
      split
      next hfull =>
        rcases hlist : c.list with _ | ⟨⟨e, frontKey⟩, rest⟩
        · simp [hlist, hsize] at hfull
        -- the front is the key pushed least recently
        have hevict : c.evictFront = { c with
            cacheMap := c.cacheMap.erase frontKey, list := rest } := by
          rw [evictFront, hlist]
        have hkeys : c.keys = frontKey :: rest.map Prod.snd := congrArg (map Prod.snd) hlist
        have hone : c.keys.length - n = 1 := by omega
        rw [hevict, rtake, hone, drop_one, hkeys]
        have hsplit : c.list = [] ++ (e, frontKey) :: rest := hlist
        refine ⟨linked_pushBack (linked_erase h hsplit) ?_, hsize, map_append⟩
        exact fun hmem => hkey (hkeys ▸ mem_cons_of_mem _ hmem)
      next hroom =>
      rw [rtake_of_length_le (by omega)]
      exact ⟨linked_pushBack h hkey, hsize, map_append⟩
  | remove key =>
    rw [touch, rtake_of_length_le ((length_erase_le ..).trans hlen)]
    simp only [exec, remove]
    cases he : c.cacheMap.lookup key with
    | some e =>
      obtain ⟨before, after, hsplit⟩ := append_of_mem (h.lookup.mp he)
      dsimp only
      rw [keys_erase h hsplit, unlink_eq h hsplit]
      exact ⟨linked_erase h hsplit, hsize, rfl⟩
    | none =>
      have hkey := (lookup_eq_none h).mp he
      rw [erase_of_not_mem hkey]
      refine ⟨{ h with lookup := fun {key' e} => ?_ }, hsize, rfl⟩
      have hlookup := @h.lookup
      by_cases heq : key' = key <;> grind [lookup_erase, lookup_erase_ne]
  | reset =>
    exact ⟨⟨by simp [exec, reset], nodup_nil, nodup_nil, nofun⟩, hsize, (rtake_nil ..).symm⟩

omit h

structure Sound (n : Nat) (ops : List (CacheOp K)) (c : LRUTxCache K) : Prop where
  linked : c.Linked
  size : c.size = n
  length_le : c.keys.length ≤ n
  nodup : (recent ops).Nodup
  suffix : c.keys <:+ recent ops
  kept : ∀ key, key ∈ c.keys ↔ Kept n ops key

lemma run_sound (n : Nat) (ops : List (CacheOp K)) :
    Sound (n + 1) ops (run (n + 1) ops) := by
  induction ops using reverseRecOn with
  | nil => exact ⟨⟨by simp [run, new], nodup_nil, nodup_nil, nofun⟩, rfl, Nat.zero_le _, nodup_nil,
      suffix_rfl, by simp [Kept, keys, run, new]⟩
  | append_singleton ops op ih =>
    obtain ⟨hlinked, hsize, hkeys⟩ := linked_exec ih.linked ih.size ih.length_le op
    have hsuffix := touch_suffix ih.suffix ih.nodup op
    have hnodup := touch_nodup ih.nodup op
    have hrecent : recent (ops ++ [op]) = touch (recent ops) op := foldl_concat ..
    rw [run, foldl_concat, ← run]
    refine ⟨hlinked, hsize, ?_, hrecent ▸ hnodup, ?_, fun key => ?_⟩
    · rw [hkeys, rtake, length_drop]
      omega
    · rw [hkeys, hrecent]
      exact (drop_suffix ..).trans hsuffix
    -- the limit may be read off all recent keys, not only those left
    rw [hkeys, kept_concat, mem_rtake hsuffix, ← ih.kept, hrecent]
    refine and_congr_left fun hmem => ?_
    exact mem_touch ih.nodup (mem_of_mem_drop hmem)

/-- The map leads from each key of the list, and no other, to its element. The
list has the keys, in the order in which they were last pushed, that have been
among the `n + 1` most recent ever since. -/
theorem cache_contents (n : Nat) (ops : List (CacheOp K)) : let c := run (n + 1) ops
    c.Linked ∧ c.list.length ≤ n + 1 ∧ c.keys <:+ recent ops
    ∧ (∀ key, key ∈ c.keys ↔ Kept (n + 1) ops key)
    ∧ ∀ key, (c.push key).1 = true ↔ key ∉ c.keys := by
  intro c
  have h : Sound (n + 1) ops c := run_sound n ops
  refine ⟨h.linked, ?_, h.suffix, h.kept, fun key => push_fst h.linked⟩
  rw [← length_map Prod.snd]
  exact h.length_le

/-- Key 1 pushes out key 0, which does not come back when key 1 is removed. -/
theorem evicted_stays_out : let ops := [.push 0, .push 1, .remove 1]
    ¬ ∀ key : TxKey, key ∈ (run 1 ops).keys ↔ key ∈ (recent ops).rtake 1 := by
  intro ops h
  have hkept : 0 ∈ (run 1 ops).keys := (h 0).mpr (by decide)
  exact absurd hkept (by decide)

end LRUTxCache

end HetuEngine.Mempool
