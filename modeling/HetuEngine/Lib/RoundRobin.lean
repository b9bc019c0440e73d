/-
Weighted round robin: everyone gains their weight, and one of those in front
then pays the total.

The `n` participants are the numbers below `n`, with weights `p` and
priorities `x`. Which of several in front is chosen is left open. The sum of
the priorities stays (`Turn.sum_eq`), and so does, up to the weights that
everyone gains, every priority modulo the total (`Turn.modEq`). Two runs of
the same length can therefore only meet if they started from the same
residues: `Turn.meet`.
-/
import Mathlib.Algebra.BigOperators.Intervals
import Mathlib.Algebra.Order.BigOperators.Group.Finset
import Mathlib.Data.Int.ModEq
import Mathlib.Tactic.Linarith

namespace HetuEngine.Lib.RoundRobin

open Finset

variable {n : ℕ} {p x x' y y' : ℕ → ℤ}

def total (n : ℕ) (x : ℕ → ℤ) : ℤ := ∑ i ∈ range n, x i

/-- The participant `m` is in front when everyone has gained their weight,
and pays the total. -/
structure TurnOf (n : ℕ) (p x x' : ℕ → ℤ) (m : ℕ) : Prop where
  lt : m < n
  front : ∀ i < n, x i + p i ≤ x m + p m
  pays : ∀ i < n, x' i = x i + p i - if i = m then total n p else 0

def Turn (n : ℕ) (p x x' : ℕ → ℤ) : Prop := ∃ m, TurnOf n p x x' m

/-- No two priorities are further apart than `d`. -/
def Within (n : ℕ) (x : ℕ → ℤ) (d : ℤ) : Prop := ∀ i < n, ∀ j < n, x i - x j ≤ d

/-- The priorities add up to almost nothing. -/
def Centred (n : ℕ) (x : ℕ → ℤ) : Prop := 0 ≤ total n x ∧ total n x < n

-- ==== What a turn keeps

lemma Turn.sum_eq (h : Turn n p x x') : total n x' = total n x := by
  obtain ⟨m, hm, -, hpay⟩ := h
  have hsum : total n x' = ∑ i ∈ range n, (x i + p i - if i = m then total n p else 0) :=
    sum_congr rfl fun i hi => hpay i (mem_range.mp hi)
  rw [hsum, sum_sub_distrib, sum_add_distrib, sum_ite_eq' (range n) m, if_pos (mem_range.mpr hm)]
  exact add_sub_cancel_right _ _

lemma Turn.centred (h : Turn n p x x') (hx : Centred n x) : Centred n x' := by
  unfold Centred
  rw [h.sum_eq]
  exact hx

variable {i : ℕ}

lemma Turn.modEq (h : Turn n p x x') (hi : i < n) :
    x' i ≡ x i + p i [ZMOD total n p] := by
  obtain ⟨m, -, -, hpay⟩ := h
  rw [hpay i hi]
  split
  · exact Int.sub_emod_right _ _
  rw [sub_zero]

/-- Turns that end alike started alike, modulo the total. -/
lemma Turn.meet (hx : Turn n p x x') (hy : Turn n p y y')
    (h : ∀ i < n, x' i = y' i) (hi : i < n) : x i ≡ y i [ZMOD total n p] := by
  have hxy : x i + p i ≡ y i + p i [ZMOD total n p] := by
    rw [Int.ModEq, ← hx.modEq hi, ← hy.modEq hi, h i hi]
  exact Int.ModEq.add_right_cancel' (p i) hxy

-- ==== How far apart

lemma total_le {c : ℤ} (h : ∀ i < n, x i ≤ c) : total n x ≤ n * c := by
  have hsum := sum_le_card_nsmul (range n) x c fun i hi => h i (mem_range.mp hi)
  rwa [card_range, nsmul_eq_mul] at hsum

lemma le_total {c : ℤ} (h : ∀ i < n, c ≤ x i) : n * c ≤ total n x := by
  have hsum := card_nsmul_le_sum (range n) x c fun i hi => h i (mem_range.mp hi)
  rwa [card_range, nsmul_eq_mul] at hsum

variable {d : ℤ}

/-- The average of priorities at most `d` apart is at most `d` from each. -/
lemma Within.average (hx : Within n x d) (hi : i < n) :
    x i - d ≤ total n x / n ∧ total n x / n ≤ x i + d := by
  have hn : (0 : ℤ) < n := by omega
  constructor
  · refine Int.le_ediv_of_mul_le hn ?_
    rw [mul_comm]
    exact le_total fun j hj => by
      have := hx i hi j hj
      omega
  refine Int.ediv_le_of_le_mul hn ?_
  rw [mul_comm]
  exact total_le fun j hj => by
    have := hx j hj i hi
    omega

lemma centred_sub_average (hn : 0 < n)
    (h : ∀ i < n, x' i = x i - total n x / n) : Centred n x' := by
  have hsum : total n x' = total n x - n * (total n x / n) := by
    have : total n x' = ∑ i ∈ range n, (x i - total n x / n) :=
      sum_congr rfl fun i hi => h i (mem_range.mp hi)
    rw [this, sum_sub_distrib, sum_const, card_range, nsmul_eq_mul]
    rfl
  have hn' : (0 : ℤ) < n := by omega
  unfold Centred
  rw [hsum, ← Int.emod_def]
  exact ⟨Int.emod_nonneg _ hn'.ne', Int.emod_lt_of_pos _ hn'⟩

lemma Centred.average (hx : Centred n x) : total n x / n = 0 :=
  Int.ediv_eq_zero_of_lt hx.1 hx.2

lemma weight_le_total (hp : ∀ i < n, 0 < p i) (hi : i < n) : p i ≤ total n p :=
  single_le_sum (fun j hj => (hp j (mem_range.mp hj)).le) (mem_range.mpr hi)

/-- A turn widens the distance by less than the total. -/
lemma Turn.within (h : Turn n p x x') (hp : ∀ i < n, 0 < p i)
    (hd : total n p ≤ d) (hx : Within n x d) :
    Within n x' (d + total n p - 1) := by
  obtain ⟨m, hm, hfront, hpay⟩ := h
  have htot := weight_le_total hp hm
  have hpm := hp m hm
  intro i hi j hj
  rw [hpay i hi, hpay j hj]
  have hij := hx i hi j hj
  have hpi := weight_le_total hp hi
  have hpj := hp j hj
  by_cases him : i = m
  · subst him
    rw [if_pos rfl]
    by_cases hjm : j = i
    · subst hjm
      rw [if_pos rfl]
      omega
    rw [if_neg hjm]
    omega
  rw [if_neg him]
  by_cases hjm : j = m
  · subst hjm
    rw [if_pos rfl]
    have := hfront i hi
    omega
  rw [if_neg hjm]
  omega

/-- Some priority is not negative, and some is not positive. -/
lemma Centred.signs (hx : Centred n x) (hn : 0 < n) :
    (∃ i < n, 0 ≤ x i) ∧ ∃ j < n, x j ≤ 0 := by
  obtain ⟨hnonneg, hlt⟩ := hx
  constructor
  · by_contra! hno
    have := total_le fun i hi => Int.le_sub_one_of_lt (hno i hi)
    omega
  by_contra! hno
  have := le_total fun i hi => Int.add_one_le_of_lt (hno i hi)
  omega

/-- Priorities that add up to almost nothing are not far from zero. -/
lemma Centred.bounds (hx : Centred n x) (hd : Within n x d)
    (hi : i < n) : -d ≤ x i ∧ x i ≤ d := by
  obtain ⟨⟨k, hk, hknonneg⟩, j, hj, hjnonpos⟩ := hx.signs (by omega)
  have hki := hd k hk i hi
  have hij := hd i hi j hj
  omega

end HetuEngine.Lib.RoundRobin
