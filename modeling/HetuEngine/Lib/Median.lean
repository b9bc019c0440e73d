/-
Walking a sorted list of weights up to a threshold, which is how a weighted
median is found.

The entry where the walk stops is in a lower part of the list exactly when
the part is not empty and its weight reaches the threshold (`walk_lower`).
Applied to "at most `t`" for every `t`, this determines the value found, so
nothing else about the list or its order matters.
-/
import Mathlib.Data.List.Sort
import Mathlib.Algebra.Order.BigOperators.Group.List
import Mathlib.Algebra.Ring.Int.Defs

namespace HetuEngine.Lib.Median

variable {α : Type}

def walk (threshold : Int) : List (α × Int) → Option α
  | [] => none
  | (x, w) :: rest => if threshold ≤ w then some x else walk (threshold - w) rest

def weightOf (p : α → Bool) (l : List (α × Int)) : Int :=
  ((l.filter fun e => p e.1).map Prod.snd).sum

variable {p q : α → Bool} {l l' : List (α × Int)}

lemma weightOf_cons (x : α) (w : Int) :
    weightOf p ((x, w) :: l) = (if p x then w else 0) + weightOf p l := by
  by_cases hx : p x = true <;> simp [weightOf, hx]

lemma weightOf_nonneg (hpos : ∀ e ∈ l, 0 < e.2) : 0 ≤ weightOf p l := by
  refine List.sum_nonneg fun w hw => ?_
  obtain ⟨e, he, rfl⟩ := List.mem_map.mp hw
  exact (hpos e (List.mem_filter.mp he).1).le

/-- Weights are positive, so a part with an entry has a weight. -/
lemma weightOf_pos (hpos : ∀ e ∈ l, 0 < e.2) :
    0 < weightOf p l ↔ ∃ e ∈ l, p e.1 = true := by
  induction l with
  | nil =>
    refine ⟨fun h => absurd h (Int.lt_irrefl 0), ?_⟩
    rintro ⟨e, he, -⟩
    cases he
  | cons e l ih =>
    obtain ⟨x, w⟩ := e
    obtain ⟨hw, hl⟩ := List.forall_mem_cons.mp hpos
    have hrest := weightOf_nonneg (p := p) hl
    rw [weightOf_cons, List.exists_mem_cons_iff]
    by_cases hx : p x = true
    · rw [if_pos hx]
      exact ⟨fun _ => .inl hx, fun _ => by omega⟩
    rw [if_neg hx, Int.zero_add, ih hl]
    exact ⟨.inr, fun h => h.resolve_left hx⟩

lemma weightOf_or (hdisj : ∀ x, p x = true → q x = false) :
    weightOf (fun x => p x || q x) l = weightOf p l + weightOf q l := by
  induction l with
  | nil => rfl
  | cons e l ih =>
    obtain ⟨x, w⟩ := e
    rw [weightOf_cons, weightOf_cons, weightOf_cons, ih]
    by_cases hp : p x = true
    · rw [hp, hdisj x hp]
      simp only [Bool.or_false, if_true, Bool.false_eq_true, if_false]
      omega
    simp only [hp, Bool.false_or, Bool.false_eq_true, if_false]
    omega

/-- The walk ends in a lower part of a sorted list exactly when the part has
an entry and its weight reaches the threshold. -/
lemma walk_lower (hpos : ∀ e ∈ l, 0 < e.2)
    (hsorted : l.Pairwise fun a b => p b.1 = true → p a.1 = true)
    (threshold : Int) :
    (∃ x, walk threshold l = some x ∧ p x = true)
      ↔ 0 < weightOf p l ∧ threshold ≤ weightOf p l := by
  induction l generalizing threshold with
  | nil =>
    refine ⟨?_, fun h => absurd h.1 (Int.lt_irrefl 0)⟩
    rintro ⟨x, hx, -⟩
    cases hx
  | cons e l ih =>
    obtain ⟨x, w⟩ := e
    obtain ⟨hw, hl⟩ := List.forall_mem_cons.mp hpos
    obtain ⟨hx, hrest⟩ := List.pairwise_cons.mp hsorted
    have hnonneg := weightOf_nonneg (p := p) hl
    rw [weightOf_cons]
    unfold walk
    by_cases hp : p x = true
    · rw [if_pos hp]
      by_cases hle : threshold ≤ w
      · rw [if_pos hle]
        exact ⟨fun _ => by omega, fun _ => ⟨x, rfl, hp⟩⟩
      rw [if_neg hle, ih hl hrest]
      constructor
      · rintro ⟨-, h⟩
        omega
      rintro ⟨-, h⟩
      omega
    -- nothing after the first entry is in the part either
    have hnone : ¬∃ e ∈ l, p e.1 = true := by
      rintro ⟨e, he, hpe⟩
      exact hp (hx e he hpe)
    have hzero : weightOf p l = 0 := by
      have := (weightOf_pos hl).not.mpr hnone
      omega
    rw [if_neg hp, hzero]
    refine ⟨?_, fun h => absurd h.1 (by omega)⟩
    rintro ⟨y, hy, hpy⟩
    by_cases hle : threshold ≤ w
    · rw [if_pos hle] at hy
      obtain rfl := Option.some.inj hy
      exact absurd hpy hp
    rw [if_neg hle] at hy
    have := (ih hl hrest (threshold - w)).mp ⟨y, hy, hpy⟩
    omega

lemma walk_isSome (hpos : ∀ e ∈ l, 0 < e.2) (hne : l ≠ [])
    {threshold : Int} (h : threshold ≤ weightOf (fun _ => true) l) :
    ∃ x, walk threshold l = some x := by
  have hsome : 0 < weightOf (fun _ => true) l := by
    refine (weightOf_pos hpos).mpr ?_
    obtain ⟨e, he⟩ := List.exists_mem_of_ne_nil l hne
    exact ⟨e, he, rfl⟩
  obtain ⟨x, hx, -⟩ := (walk_lower hpos
    (List.pairwise_of_forall fun _ _ _ => rfl) threshold).mpr ⟨hsome, h⟩
  exact ⟨x, hx⟩

end HetuEngine.Lib.Median
