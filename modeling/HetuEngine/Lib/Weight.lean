/-
Weighted sets of keys: two sets whose weights together exceed the total
share a key.

The total is a bound on the weight of every repetition-free list of keys, so
the lemma speaks about lists as programs build them (the authors of a list of
messages) and needs no universe of keys.

The second half bounds machine sums: adding in words of `w` bits gives the
true sum reduced, so the machine result is never above the true one.
-/
import Mathlib.Algebra.Order.BigOperators.Group.Finset
import Mathlib.Tactic.Ring

namespace HetuEngine.Lib.Weight

variable {K : Type} [DecidableEq K]

def weigh (w : K → Nat) (ks : List K) : Nat := (ks.map w).sum

omit [DecidableEq K] in
@[simp] lemma weigh_nil (w : K → Nat) : weigh w [] = 0 := rfl

omit [DecidableEq K] in
@[simp] lemma weigh_cons (w : K → Nat) (k : K) (ks : List K) :
    weigh w (k :: ks) = w k + weigh w ks := List.sum_cons

/-- A repetition-free list weighs what its set of keys weighs. -/
lemma weigh_eq_sum (w : K → Nat) {ks : List K} (h : ks.Nodup) :
    weigh w ks = ∑ k ∈ ks.toFinset, w k :=
  (List.sum_toFinset w h).symm

variable {w : K → Nat}

variable {as bs : List K}

/-- Two repetition-free lists whose weights together exceed the total share
a key. -/
lemma exists_common {total : Nat}
    (hbound : ∀ ks : List K, ks.Nodup → weigh w ks ≤ total) (has : as.Nodup)
    (hbs : bs.Nodup) (h : total < weigh w as + weigh w bs) :
    ∃ k ∈ as, k ∈ bs := by
  by_contra hno
  have hdisj : as.Disjoint bs := fun k ha hb => hno ⟨k, ha, hb⟩
  have hle := hbound (as ++ bs) (has.append hbs hdisj)
  have happ : weigh w (as ++ bs) = weigh w as + weigh w bs := by
    unfold weigh
    rw [List.map_append, List.sum_append]
  omega

lemma weigh_le_of_subset (has : as.Nodup) (hbs : bs.Nodup)
    (hsub : ∀ k ∈ as, k ∈ bs ∨ w k = 0) : weigh w as ≤ weigh w bs := by
  rw [weigh_eq_sum w has, weigh_eq_sum w hbs]
  refine Finset.sum_le_sum_of_ne_zero fun k hk hne => ?_
  rw [List.mem_toFinset] at hk ⊢
  rcases hsub k hk with h | h
  · exact h
  exact absurd h hne

omit [DecidableEq K] in
lemma weigh_filter_add (w : K → Nat) (p : K → Bool) (ks : List K) :
    weigh w (ks.filter p)
      + weigh w (ks.filter fun k => !p k) = weigh w ks := by
  unfold weigh
  rw [← List.sum_append, ← List.map_append]
  exact ((List.filter_append_perm p ks).map w).sum_eq

/-- If no key alone reaches `q` but all together do, some of them weigh at
least `q` and less than twice that. -/
lemma exists_subset_between {q : Nat} (hq : 0 < q) {S : Finset K}
    (hsmall : ∀ k ∈ S, w k < q) (h : q ≤ ∑ k ∈ S, w k) :
    ∃ A ⊆ S, q ≤ ∑ k ∈ A, w k ∧ ∑ k ∈ A, w k + 2 ≤ 2 * q := by
  induction S using Finset.induction_on with
  | empty =>
    rw [Finset.sum_empty] at h
    omega
  | insert a S ha ih =>
    by_cases hrest : q ≤ ∑ k ∈ S, w k
    · obtain ⟨A, hA, hbetween⟩ := ih (fun k hk => hsmall k (Finset.mem_insert_of_mem hk)) hrest
      exact ⟨A, hA.trans (Finset.subset_insert a S), hbetween⟩
    have hlast := hsmall a (Finset.mem_insert_self a S)
    refine ⟨insert a S, subset_rfl, h, ?_⟩
    rw [Finset.sum_insert ha]
    omega

/-- Positions of a list, weighed by what stands there. -/
lemma weigh_index_le {α : Type} (l : List α) (f : α → Nat) {is : List Nat}
    (h : is.Nodup) : weigh (fun i => (l[i]?).elim 0 f) is ≤ (l.map f).sum := by
  have hall : weigh (fun i => (l[i]?).elim 0 f) (List.range l.length) = (l.map f).sum := by
    unfold weigh
    congr 1
    refine List.ext_getElem (by simp) fun i hi hi' => ?_
    rw [List.length_map] at hi'
    simp [hi']
  rw [← hall]
  refine weigh_le_of_subset h List.nodup_range fun i _ => ?_
  by_cases hi : i < l.length
  · exact .inl (List.mem_range.mpr hi)
  refine .inr ?_
  rw [List.getElem?_eq_none (Nat.le_of_not_lt hi)]
  rfl

-- ==== machine sums

def word (w n : Nat) : Nat := n % 2 ^ w

lemma word_le (w n : Nat) : word w n ≤ n := Nat.mod_le _ _

lemma word_of_lt {w n : Nat} (h : n < 2 ^ w) : word w n = n :=
  Nat.mod_eq_of_lt h

lemma word_add_word (w a b : Nat) :
    word w (word w a + b) = word w (a + b) := by
  unfold word
  rw [Nat.mod_add_mod]

def wordSub (w a b : Nat) : Nat := if b ≤ a then a - b else a + 2 ^ w - b

lemma wordSub_of_le {w a b : Nat} (hb : b ≤ a) : wordSub w a b = a - b :=
  if_pos hb

end HetuEngine.Lib.Weight
