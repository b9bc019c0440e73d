/-
What is reaped for a proposal.

`ReapMaxBytesMaxGas` takes transactions from the front until one is over a
limit. Gas is what the application says: if it is negative, a sum can fall
again behind a prefix that is over the limit. Else the result is the longest
prefix within the limits, unless the gas sum wraps around on the way over the
limit (`longest_iff`). `ReapMaxTxs` lets `max` itself pass: it takes one
transaction more than it was asked for.
-/
import HetuEngine.Mempool.Narwhal
import Mathlib.Algebra.Order.BigOperators.Group.List

namespace HetuEngine.Mempool

open List Nat

variable {maxBytes maxGas : Int} {l : List MempoolTx}

def totalSize (l : List MempoolTx) : Int := (l.map fun m => protoSize m.tx).sum

def totalGas (l : List MempoolTx) : Int := (l.map MempoolTx.gasWanted).sum

/-- Size and gas are within the limits, with the sums as `word` has them. -/
def Within (word : Int → Int) (maxBytes maxGas : Int) (l : List MempoolTx) :
    Prop :=
  (-1 < maxBytes → word (totalSize l) ≤ maxBytes) ∧ (-1 < maxGas → word (totalGas l) ≤ maxGas)

/-- The longest prefix within the limits. -/
def Longest (maxBytes maxGas : Int) (l : List MempoolTx) (txs : List Tx) :
    Prop :=
  ∃ n ≤ l.length, txs = (l.take n).map MempoolTx.tx ∧ Within id maxBytes maxGas (l.take n)
    ∧ ∀ m, n < m → m ≤ l.length → ¬Within id maxBytes maxGas (l.take m)

/-- What is asked of the transactions and the limit: no gas is negative, gas
and limit are 64-bit numbers, and so is the size of all transactions. -/
structure Plain (maxGas : Int) (l : List MempoolTx) : Prop where
  gas : ∀ m ∈ l, 0 ≤ m.gasWanted ∧ m.gasWanted < 2 ^ 63
  size : totalSize l < 2 ^ 63
  limit : maxGas < 2 ^ 63

/-- The next transaction takes the gas of a prefix within the limits beyond 64
bits, and its size is within the limit. -/
def OverflowsAt (maxBytes maxGas : Int) (l : List MempoolTx) (k : Nat) : Prop :=
  -1 < maxGas ∧ Within id maxBytes maxGas (l.take k)
    ∧ (-1 < maxBytes → totalSize (l.take (k + 1)) ≤ maxBytes)
    ∧ 2 ^ 63 ≤ totalGas (l.take (k + 1))

-- ==== the loops

lemma int64_add (x y : Int) : int64 (int64 x + y) = int64 (x + y) :=
  Int.bmod_add_bmod

def reapAfter (maxBytes maxGas : Int) (before l : List MempoolTx) : List Tx :=
  reapLoop maxBytes maxGas (int64 (totalSize before)) (int64 (totalGas before)) l

open Classical in
lemma reapAfter_cons (before rest : List MempoolTx) (m : MempoolTx) :
    reapAfter maxBytes maxGas before (m :: rest)
    = if Within int64 maxBytes maxGas (before ++ [m]) then
        m.tx :: reapAfter maxBytes maxGas (before ++ [m]) rest
      else [] := by
  have hsize : totalSize (before ++ [m]) = totalSize before + protoSize m.tx := by simp [totalSize]
  have hgas : totalGas (before ++ [m]) = totalGas before + m.gasWanted := by simp [totalGas]
  unfold reapAfter Within
  rw [reapLoop]
  simp only [int64_add, hsize, hgas]
  split
  · next h => rw [if_neg fun hw => absurd (hw.1 h.1) (not_le_of_gt h.2)]
  next hbytes =>
  split
  · next h => rw [if_neg fun hw => absurd (hw.2 h.1) (not_le_of_gt h.2)]
  next hlimit =>
  rw [if_pos ⟨by omega, by omega⟩]

lemma reapAfter_eq (before l : List MempoolTx) :
    ∃ n ≤ l.length, reapAfter maxBytes maxGas before l
      = (l.take n).map MempoolTx.tx
      ∧ ∀ k ≤ l.length, (∀ j, 0 < j → j ≤ k →
        Within int64 maxBytes maxGas (before ++ l.take j))
        ↔ k ≤ n := by
  induction l generalizing before with
  | nil =>
    refine ⟨0, le_refl _, rfl, fun k hk => ⟨fun _ => hk, fun _ j hj hjk => ?_⟩⟩
    have : k ≤ 0 := hk
    omega
  | cons m rest ih =>
    rw [reapAfter_cons]
    by_cases hm : Within int64 maxBytes maxGas (before ++ [m])
    · obtain ⟨n, hn, heq, hk⟩ := ih (before ++ [m])
      rw [if_pos hm, heq]
      refine ⟨n + 1, succ_le_succ hn, rfl, fun k hlen => ?_⟩
      cases k with
      | zero => exact ⟨fun _ => zero_le _, fun _ j hj hjk => by omega⟩
      | succ k =>
        rw [succ_le_succ_iff, ← hk k (le_of_succ_le_succ hlen)]
        constructor
        · intro hall j _ hjk
          have := hall (j + 1) (succ_pos j) (succ_le_succ hjk)
          rwa [take_succ_cons, append_cons] at this
        intro hall j hj hjk
        obtain ⟨j, rfl⟩ := exists_eq_succ_of_ne_zero (ne_of_gt hj)
        rw [succ_eq_add_one, take_succ_cons, append_cons]
        by_cases hzero : j = 0
        · rw [hzero, take_zero, append_nil]
          exact hm
        exact hall j (pos_of_ne_zero hzero) (le_of_succ_le_succ hjk)
    rw [if_neg hm]
    refine ⟨0, zero_le _, rfl, fun k _ => ⟨fun hall => ?_, ?_⟩⟩
    · by_contra hk
      exact hm (hall 1 one_pos (by omega))
    intro hk j hj hjk
    omega

lemma reapTxsLoop_eq (max taken : Int) (l : List MempoolTx) :
    reapTxsLoop max taken l
      = (l.take (max + 1 - taken).toNat).map MempoolTx.tx := by
  induction l generalizing taken with
  | nil => simp [reapTxsLoop]
  | cons m rest ih =>
    unfold reapTxsLoop
    split
    · next h =>
      rw [ih, show (max + 1 - taken).toNat = (max + 1 - (taken + 1)).toNat + 1 by omega]
      rfl
    next h =>
    rw [show (max + 1 - taken).toNat = 0 by omega]
    rfl

-- ==== the sums

lemma totalSize_mono {j k : Nat} (h : j ≤ k) :
    totalSize (l.take j) ≤ totalSize (l.take k) := by
  refine List.Sublist.sum_le_sum ((List.take_sublist_take_left h).map _) ?_
  rintro _ hx
  obtain ⟨m, -, rfl⟩ := List.mem_map.mp hx
  unfold protoSize
  omega

lemma int64_eq {x : Int} (h : 0 ≤ x) (hlt : x < 2 ^ 63) : int64 x = x := by
  unfold int64
  rw [Int.bmod_eq_of_le] <;> omega

namespace Plain

variable (h : Plain maxGas l) {j k : Nat}

include h

lemma totalGas_mono (hjk : j ≤ k) :
    totalGas (l.take j) ≤ totalGas (l.take k) := by
  refine List.Sublist.sum_le_sum ((List.take_sublist_take_left hjk).map _) ?_
  rintro _ hx
  obtain ⟨m, hm, rfl⟩ := List.mem_map.mp hx
  exact (h.gas m (List.mem_of_mem_take hm)).1

lemma int64_size (k : Nat) :
    int64 (totalSize (l.take k)) = totalSize (l.take k) := by
  have hzero : 0 ≤ totalSize (l.take k) := totalSize_mono (Nat.zero_le k)
  have hle : totalSize (l.take k) ≤ totalSize (l.take (max k l.length)) :=
    totalSize_mono (Nat.le_max_left ..)
  rw [List.take_of_length_le (Nat.le_max_right ..)] at hle
  exact int64_eq hzero (hle.trans_lt h.size)

lemma within_mono (hjk : j ≤ k) (hw : Within id maxBytes maxGas (l.take k)) :
    Within id maxBytes maxGas (l.take j) :=
  ⟨fun hb => (totalSize_mono hjk).trans (hw.1 hb),
    fun hg => (h.totalGas_mono hjk).trans (hw.2 hg)⟩

/-- Sums within the limits fit in 64 bits. -/
lemma within_int64 (hw : Within id maxBytes maxGas (l.take k)) :
    Within int64 maxBytes maxGas (l.take k) := by
  refine ⟨fun hb => (h.int64_size k).trans_le (hw.1 hb), fun hg => ?_⟩
  have hle : totalGas (l.take k) ≤ maxGas := hw.2 hg
  rwa [int64_eq (h.totalGas_mono (Nat.zero_le k)) (hle.trans_lt h.limit)]

/-- What the loop takes behind a prefix within the limits: what is within
them, and what overflows. -/
lemma within_succ (hk : k < l.length)
    (hw : Within id maxBytes maxGas (l.take k)) :
    Within int64 maxBytes maxGas (l.take (k + 1))
      ↔ Within id maxBytes maxGas (l.take (k + 1))
        ∨ OverflowsAt maxBytes maxGas l k := by
  have hgas : totalGas (l.take (k + 1)) = totalGas (l.take k)
      + l[k].gasWanted := by
    unfold totalGas
    rw [List.take_succ_eq_append_getElem hk, List.map_append, List.sum_append,
      List.map_singleton, List.sum_singleton]
  obtain ⟨hnonneg, hlt⟩ := h.gas l[k] (List.getElem_mem hk)
  have hzero : 0 ≤ totalGas (l.take k) := h.totalGas_mono (Nat.zero_le k)
  have hlimit := h.limit
  constructor
  · rintro ⟨hb, hg⟩
    rw [h.int64_size] at hb
    by_cases hover : 2 ^ 63 ≤ totalGas (l.take (k + 1))
    · by_cases hmax : -1 < maxGas
      · exact .inr ⟨hmax, hw, hb, hover⟩
      exact .inl ⟨hb, fun hg => absurd hg hmax⟩
    rw [int64_eq (by omega) (by omega)] at hg
    exact .inl ⟨hb, hg⟩
  rintro (hw' | ⟨hmax, -, hb, hover⟩)
  · exact h.within_int64 hw'
  refine ⟨fun hbytes => (h.int64_size _).trans_le (hb hbytes), fun _ => ?_⟩
  -- the gas sum is negative now
  have hle : totalGas (l.take k) ≤ maxGas := hw.2 hmax
  unfold int64
  rw [Int.bmod_def, if_neg (by omega)]
  omega

end Plain

-- ==== what is reaped

lemma longest_iff (h : Plain maxGas l) :
    Longest maxBytes maxGas l (reapLoop maxBytes maxGas 0 0 l)
      ↔ ∀ k < l.length, ¬OverflowsAt maxBytes maxGas l k := by
  obtain ⟨n, hn, heq, htaken⟩ := @reapAfter_eq maxBytes maxGas [] l
  simp only [List.nil_append] at htaken
  rw [show reapLoop maxBytes maxGas 0 0 l = _ from heq]
  constructor
  · rintro ⟨n', hn', htake, hwithin, -⟩ k hk hover
    have hlength := congrArg List.length htake
    simp only [List.length_map, List.length_take, Nat.min_eq_left hn,
      Nat.min_eq_left hn'] at hlength
    subst hlength
    have hnext : k + 1 ≤ n := (htaken (k + 1) hk).mp fun j _ hj => by
      rcases Nat.lt_or_eq_of_le hj with hj | rfl
      · exact h.within_int64 (h.within_mono (Nat.le_of_lt_succ hj) hover.2.1)
      exact (h.within_succ hk hover.2.1).mpr (.inr hover)
    have hle := (h.totalGas_mono hnext).trans (hwithin.2 hover.1)
    have hlimit := h.limit
    have hgas := hover.2.2.2
    omega
  intro hno
  have hfits : ∀ k ≤ n, Within id maxBytes maxGas (l.take k) := by
    intro k hk
    induction k with
    | zero => exact ⟨Int.add_one_le_of_lt, Int.add_one_le_of_lt⟩
    | succ k ih =>
      have hlt : k < l.length := hk.trans hn
      have hword := (htaken (k + 1) hlt).mpr hk (k + 1) k.succ_pos le_rfl
      exact ((h.within_succ hlt (ih (by omega))).mp hword).resolve_right
        (hno k hlt)
  refine ⟨n, hn, rfl, hfits n le_rfl, fun m hnm hm hw => ?_⟩
  have hnext : n + 1 ≤ n := (htaken (n + 1) (Nat.lt_of_lt_of_le hnm hm)).mp fun j _ hj =>
    h.within_int64 (h.within_mono (hj.trans hnm) hw)
  omega

variable {κ : Type}

structure Pool.Reaps (s : Pool κ) (maxBytes maxGas max : Int) : Prop where
  longest : Longest maxBytes maxGas s.txs.values
    (s.reapMaxBytesMaxGas maxBytes maxGas)
  first : 0 ≤ max → s.reapMaxTxs max = s.content.take max.toNat

/-- A pool of two transactions with this gas. -/
def Solo.pair (gas gas' : Int) : Pool Unit :=
  system.toSetup.runFrom (system.toSetup.new 1 none none)
    [.checkTx conn [7] (), .respond 0 ⟨codeTypeOK, gas⟩,
      .checkTx conn [8] (), .respond 0 ⟨codeTypeOK, gas'⟩]

end HetuEngine.Mempool
